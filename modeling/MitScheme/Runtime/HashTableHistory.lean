import MitScheme.Runtime.HashTableMap

/-! # Histories of a hash table

Any sequence of operations on one strong table, with collections between them
and inside the operations that call back, against the same operations on a
map. -/

namespace MitScheme.Runtime.HashTable
open Lib.Assoc

section
variable {K D A : Type} {E : KeyEquiv K}

/-- One event of a history. A collection gives address-hash tables another hash
function; `during` is one that runs while the operation's own procedure does. -/
inductive Event (E : KeyEquiv K) (D A : Type)
  | gc (h : KeyHash E)
  | set (plist : List (K × D)) (rest : Option K)
  | ref (key : K) (fail : Option D) (succeed : Option (D → D))
  | delete (keys : List K)
  | update (key : K) (procedure : D → D) (fail : Option D) (succeed : Option (D → D))
      (during : Option (KeyHash E))
  | intern (key : K) (generated : D) (during : Option (KeyHash E))
  | clear
  | prune (predicate : K → D → Bool)
  | map (procedure : K → D → D)
  | fold (kons : K → D → A → A) (knil : A)

inductive Reply (K D A : Type)
  | unspecific
  | datum (d : D)
  | deleted (count : Nat)
  | folded (a : A)
  | error (e : BadRange K)

structure World (E : KeyEquiv K) (D : Type) where
  keyHash : KeyHash E
  table : Table K D

namespace World

def collect (w : World E D) (h : KeyHash E) : World E D :=
  if w.table.rehashAfterGc then ⟨h, w.table.markAddressHashTable⟩ else w

def collectDuring (w : World E D) : Option (KeyHash E) → World E D
  | some h => w.collect h
  | none => w

def hashTableUpdate (w : World E D) (key : K) (procedure : D → D) (fail : Option D)
    (succeed : Option (D → D)) (during : Option (KeyHash E)) : World E D × Reply K D A :=
  let (t, datum) := w.table.hashTableRef w.keyHash key fail succeed
  match datum with
  | .ok datum =>
    let w := { w with table := t }.collectDuring during
    ({ w with table := w.table.methodPut w.keyHash key (procedure datum) }, .unspecific)
  | .error e => ({ w with table := t }, .error e)

def hashTableIntern (w : World E D) (key : K) (generated : D) (during : Option (KeyHash E)) :
    World E D × Reply K D A :=
  let (t, datum) := w.table.methodGet w.keyHash key
  match datum with
  | some datum => ({ w with table := t }, .datum datum)
  | none =>
    let w := { w with table := t }.collectDuring during
    ({ w with table := w.table.methodPut w.keyHash key generated }, .datum generated)

def step (w : World E D) : Event E D A → World E D × Reply K D A
  | .gc h => (w.collect h, .unspecific)
  | .set plist rest =>
    let (t, r) := w.table.hashTableSet w.keyHash plist rest
    ({ w with table := t }, match r with | .ok _ => .unspecific | .error e => .error e)
  | .ref key fail succeed =>
    let (t, r) := w.table.hashTableRef w.keyHash key fail succeed
    ({ w with table := t }, match r with | .ok d => .datum d | .error e => .error e)
  | .delete keys =>
    let (t, count) := w.table.hashTableDelete w.keyHash 0 keys
    ({ w with table := t }, .deleted count)
  | .update key procedure fail succeed during =>
    w.hashTableUpdate key procedure fail succeed during
  | .intern key generated during => w.hashTableIntern key generated during
  | .clear => ({ w with table := w.table.hashTableClear }, .unspecific)
  | .prune predicate =>
    ({ w with table := w.table.hashTablePrune w.keyHash predicate }, .unspecific)
  | .map procedure => ({ w with table := w.table.hashTableMap w.keyHash procedure }, .unspecific)
  | .fold kons knil => (w, .folded (w.table.methodFold kons knil))

def run (w : World E D) : List (Event E D A) → World E D × List (Reply K D A)
  | [] => (w, [])
  | event :: events =>
    let (w, reply) := w.step event
    let (w, replies) := w.run events
    (w, reply :: replies)

end World

/-! ## The same events on a map -/

def Contents.deleteAll (E : KeyEquiv K) (m : Contents K D) (count : Nat) :
    List K → Contents K D × Nat
  | [] => (m, count)
  | key :: keys =>
    deleteAll E (m.delete E key) (if (m.get key).isSome then count + 1 else count) keys

def Contents.setAll (E : KeyEquiv K) (m : Contents K D) : List (K × D) → Contents K D
  | [] => m
  | (key, datum) :: plist => setAll E (m.set E key datum) plist

/-- What an event does to a map and what it answers. A fold may visit the keys
in any order. -/
def Contents.Step (E : KeyEquiv K) (m : Contents K D) :
    Event E D A → Reply K D A → Contents K D → Prop
  | .gc _, reply, m' => reply = .unspecific ∧ m' = m
  | .set plist rest, reply, m' =>
    m' = m.setAll E plist ∧
      reply = match rest with | none => .unspecific | some key => .error (.hashTableSet [key])
  | .ref key fail succeed, reply, m' =>
    m' = m ∧ reply = match Table.refValue key fail succeed (m.get key) with
      | .ok d => .datum d
      | .error e => .error e
  | .delete keys, reply, m' =>
    m' = (m.deleteAll E 0 keys).1 ∧ reply = .deleted (m.deleteAll E 0 keys).2
  | .update key procedure fail succeed _, reply, m' =>
    match Table.refValue key fail succeed (m.get key) with
    | .ok d => m' = m.set E key (procedure d) ∧ reply = .unspecific
    | .error e => m' = m ∧ reply = .error e
  | .intern key generated _, reply, m' =>
    match m.get key with
    | some d => m' = m ∧ reply = .datum d
    | none => m' = m.set E key generated ∧ reply = .datum generated
  | .clear, reply, m' => m' = (fun _ => none) ∧ reply = .unspecific
  | .prune predicate, reply, m' => m' = m.prune predicate ∧ reply = .unspecific
  | .map procedure, reply, m' => m' = m.map procedure ∧ reply = .unspecific
  | .fold kons knil, reply, m' =>
    m' = m ∧ ∃ visited, m.Enumerates E visited ∧
      reply = .folded (visited.foldl (fun acc a => kons a.1 a.2 acc) knil)

def Contents.Run (E : KeyEquiv K) (m : Contents K D) :
    List (Event E D A) → List (Reply K D A) → Contents K D → Prop
  | [], [], m' => m' = m
  | event :: events, reply :: replies, m' =>
    ∃ m1, m.Step E event reply m1 ∧ Contents.Run E m1 events replies m'
  | _, _, _ => False

/-! ## Refinement -/

def World.Ok (w : World E D) : Prop := Inv w.keyHash w.table

def World.contents (w : World E D) : Contents K D := w.table.contents E

theorem World.collect_spec {w : World E D} (hw : w.Ok) (h : KeyHash E) :
    (w.collect h).Ok ∧ (w.collect h).contents = w.contents := by
  unfold World.collect
  split
  · rename_i ha
    refine ⟨?_, ?_⟩
    · simp only [World.Ok, Table.markAddressHashTable, ha, if_true]
      exact ⟨hw.buckets_pos, hw.primes_pos, hw.valid, hw.distinct, nofun,
        nofun⟩
    · simp only [World.contents, Table.markAddressHashTable, ha, if_true]
      rfl
  · exact ⟨hw, rfl⟩

theorem World.collectDuring_spec {w : World E D} (hw : w.Ok) (during) :
    (w.collectDuring during).Ok ∧ (w.collectDuring during).contents = w.contents := by
  cases during with
  | none => exact ⟨hw, rfl⟩
  | some h => exact World.collect_spec hw h

theorem hashTableSet_spec {h : KeyHash E} : ∀ (plist : List (K × D)) (rest : Option K)
    {t : Table K D}, Inv h t →
      Inv h (t.hashTableSet h plist rest).1 ∧
      (t.hashTableSet h plist rest).1.contents E = (t.contents E).setAll E plist ∧
      (t.hashTableSet h plist rest).2 =
        match rest with | none => .ok () | some key => .error (.hashTableSet [key])
  | [], none, _, hi => ⟨hi, rfl, rfl⟩
  | [], some _, _, hi => ⟨hi, rfl, rfl⟩
  | (key, datum) :: plist, rest, t, hi => by
    obtain ⟨h1, h2⟩ := methodPut_spec hi key datum
    rw [Table.hashTableSet, Contents.setAll, ← h2]
    exact hashTableSet_spec plist rest h1

theorem hashTableDelete_spec {h : KeyHash E} : ∀ (keys : List K) (count : Nat)
    {t : Table K D}, Inv h t →
      Inv h (t.hashTableDelete h count keys).1 ∧
      (t.hashTableDelete h count keys).1.contents E = ((t.contents E).deleteAll E count keys).1 ∧
      (t.hashTableDelete h count keys).2 = ((t.contents E).deleteAll E count keys).2
  | [], _, _, hi => ⟨hi, rfl, rfl⟩
  | key :: keys, count, t, hi => by
    obtain ⟨h1, h2, h3⟩ := methodRemove_spec hi key
    simp only [Table.hashTableDelete, Contents.deleteAll]
    rw [← h2, ← h3]
    exact hashTableDelete_spec keys _ h1

theorem hashTableUpdate_spec {w : World E D} (hw : w.Ok) (key procedure fail succeed during) :
    (w.hashTableUpdate (A := A) key procedure fail succeed during).1.Ok ∧
      w.contents.Step E (.update key procedure fail succeed during)
        (w.hashTableUpdate (A := A) key procedure fail succeed during).2
        (w.hashTableUpdate (A := A) key procedure fail succeed during).1.contents := by
  obtain ⟨h1, h2, h3⟩ := methodGet_spec hw key
  simp only [World.hashTableUpdate, Table.hashTableRef, Contents.Step, h3, World.contents]
  cases Table.refValue key fail succeed ((w.table.contents E).get key) with
  | error e => exact ⟨h1, h2, rfl⟩
  | ok d =>
    obtain ⟨h4, h5⟩ := World.collectDuring_spec
      (w := { w with table := (w.table.methodGet w.keyHash key).1 }) h1 during
    obtain ⟨h6, h7⟩ := methodPut_spec h4 key (procedure d)
    refine ⟨h6, h7.trans ?_, rfl⟩
    rw [World.contents] at h5
    rw [h5, World.contents, h2]

theorem hashTableIntern_spec {w : World E D} (hw : w.Ok) (key generated during) :
    (w.hashTableIntern (A := A) key generated during).1.Ok ∧
      w.contents.Step E (.intern key generated during)
        (w.hashTableIntern (A := A) key generated during).2
        (w.hashTableIntern (A := A) key generated during).1.contents := by
  obtain ⟨h1, h2, h3⟩ := methodGet_spec hw key
  simp only [World.hashTableIntern, Contents.Step, h3, World.contents]
  cases (w.table.contents E).get key with
  | some d => exact ⟨h1, h2, rfl⟩
  | none =>
    obtain ⟨h4, h5⟩ := World.collectDuring_spec
      (w := { w with table := (w.table.methodGet w.keyHash key).1 }) h1 during
    obtain ⟨h6, h7⟩ := methodPut_spec h4 key generated
    refine ⟨h6, h7.trans ?_, rfl⟩
    rw [World.contents] at h5
    rw [h5, World.contents, h2]

theorem World.step_spec {w : World E D} (hw : w.Ok) (event : Event E D A) :
    (w.step event).1.Ok ∧ w.contents.Step E event (w.step event).2 (w.step event).1.contents := by
  cases event with
  | gc h =>
    obtain ⟨h1, h2⟩ := World.collect_spec hw h
    exact ⟨h1, rfl, h2⟩
  | set plist rest =>
    obtain ⟨h1, h2, h3⟩ := hashTableSet_spec plist rest hw
    refine ⟨h1, h2, ?_⟩
    simp only [World.step, h3]
    cases rest <;> rfl
  | ref key fail succeed =>
    obtain ⟨h1, h2, h3⟩ := methodGet_spec hw key
    refine ⟨h1, h2, ?_⟩
    simp only [World.step, Table.hashTableRef, h3]
    rfl
  | delete keys =>
    obtain ⟨h1, h2, h3⟩ := hashTableDelete_spec keys 0 hw
    refine ⟨h1, h2, ?_⟩
    simp only [World.step, h3]
    rfl
  | update key procedure fail succeed during =>
    exact hashTableUpdate_spec hw key procedure fail succeed during
  | intern key generated during => exact hashTableIntern_spec hw key generated during
  | clear =>
    obtain ⟨h1, h2⟩ := hashTableClear_spec hw
    exact ⟨h1, h2, rfl⟩
  | prune predicate =>
    obtain ⟨h1, h2⟩ := hashTablePrune_spec hw predicate
    exact ⟨h1, h2, rfl⟩
  | map procedure =>
    obtain ⟨h1, h2⟩ := hashTableMap_spec hw procedure
    exact ⟨h1, h2, rfl⟩
  | fold kons knil =>
    refine ⟨hw, rfl, w.table.entries.map Entry.pair, enumerates_entries hw, ?_⟩
    simp only [World.step, methodFold_spec hw.valid]

theorem World.run_spec : ∀ (events : List (Event E D A)) {w : World E D}, w.Ok →
    (w.run events).1.Ok ∧ w.contents.Run E events (w.run events).2 (w.run events).1.contents
  | [], _, hw => ⟨hw, rfl⟩
  | event :: events, w, hw => by
    obtain ⟨h1, h2⟩ := World.step_spec hw event
    obtain ⟨h3, h4⟩ := World.run_spec events h1
    exact ⟨h3, _, h2, h4⟩

/-- **Hash tables refine a finite map under any history.** Start with a new
strong table, address hashed or not. However its operations and collections
follow each other, their answers are those of the map from keys to the datum
stored last, a fold visits each key of the map exactly once, and no chain holds
two equal keys. -/
theorem hash_table_refines_map (h : KeyHash E) (rehashAfterGc : Bool) (initialSize : Option Nat)
    (events : List (Event E D A)) :
    let start : World E D := ⟨h, Table.makeHashTable rehashAfterGc initialSize⟩
    Contents.Run E (fun _ => none) events (start.run events).2 (start.run events).1.contents ∧
      ∀ chain ∈ (start.run events).1.table.buckets, Distinct E Entry.key chain := by
  intro start
  obtain ⟨h1, h2⟩ := makeHashTable_spec (D := D) h rehashAfterGc initialSize
  obtain ⟨h3, h4⟩ := World.run_spec events (w := start) h1
  refine ⟨?_, fun chain hc => ?_⟩
  · rw [World.contents, h2] at h4
    exact h4
  · exact h3.distinct.sublist (List.sublist_flatten_of_mem hc)

end

/-- `eq?`, of objects without parts. -/
def eqKey : KeyEquiv Nat where
  eq j k := j == k
  refl k := beq_self_eq_true k
  symm h := by rw [eq_of_beq h, beq_self_eq_true]
  trans h h' := by rw [eq_of_beq h, h']

/-- `eq-hash-mod`, while the objects lie from `base` on. -/
def eqHashMod (base : Nat) : KeyHash eqKey where
  hash key modulus := (base + key) % modulus
  hash_lt _ _ hm := Nat.mod_lt _ hm
  congr h modulus := by rw [eq_of_beq h]

/-- A key is found again after a collection has moved it. -/
theorem hash_table_refines_map_moved :
    (World.run ⟨eqHashMod 0, Table.makeHashTable true none⟩
      ([.set [(1, 'a'), (2, 'b')] none, .gc (eqHashMod 7), .ref 2 none none] :
        List (Event eqKey Char Unit))).2 = [.unspecific, .unspecific, .datum 'b'] := by
  obtain ⟨hrun, -⟩ := hash_table_refines_map (eqHashMod 0) true none
    ([.set [(1, 'a'), (2, 'b')] none, .gc (eqHashMod 7), .ref 2 none none] :
      List (Event eqKey Char Unit))
  generalize (World.run _ _).2 = replies at hrun ⊢
  match replies, hrun with
  | [_, _, _], ⟨_, ⟨rfl, rfl⟩, _, ⟨rfl, rfl⟩, _, ⟨_, rfl⟩, _⟩ => rfl

end MitScheme.Runtime.HashTable
