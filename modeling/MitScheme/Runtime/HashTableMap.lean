import MitScheme.Runtime.HashTable

/-! # Hash tables as finite maps

What a strong table holds for each key, and that every operation acts on this
map alone, whatever the buckets, the sizes and the hash function are. -/

namespace MitScheme.Runtime.HashTable
open Lib.Assoc

section
variable {K D : Type} {E : KeyEquiv K} {h : KeyHash E} {t : Table K D}

/-! ## The invariant -/

def Table.entries (t : Table K D) : List (Entry K D) := t.buckets.flatten

def Placed (h : KeyHash E) (buckets : List (List (Entry K D))) : Prop :=
  ∀ i, ∀ e ∈ buckets.getD i [], h.hash e.key buckets.length = i

/-- The representation invariant of a strong table. The entries may be anywhere
while `needs-rehash?` is set, which only happens to address-hash tables. -/
structure Inv (h : KeyHash E) (t : Table K D) : Prop where
  buckets_pos : 0 < t.buckets.length
  primes_pos : 0 < t.primes
  valid : ∀ e ∈ t.entries, e.valid = true
  distinct : Distinct E Entry.key t.entries
  placed : t.needsRehash = false → Placed h t.buckets
  address : t.rehashAfterGc = false → t.needsRehash = false

/-- The step from `t` to `t'` moves entries between buckets and nothing else. -/
structure Moves (h : KeyHash E) (t t' : Table K D) : Prop where
  inv : Inv h t'
  entries : t'.entries.Perm t.entries
  needsRehash : t.needsRehash = false → t'.needsRehash = false

theorem Moves.refl (hi : Inv h t) : Moves h t t :=
  ⟨hi, .refl _, id⟩

theorem Moves.trans {t t' t'' : Table K D} (h1 : Moves h t t')
    (h2 : Moves h t' t'') : Moves h t t'' :=
  ⟨h2.inv, h2.entries.trans h1.entries, fun hn => h2.needsRehash (h1.needsRehash hn)⟩

/-! ## Rehashing -/

theorem Placed.set {buckets : List (List (Entry K D))} {i chain} (hp : Placed h buckets)
    (hc : ∀ e ∈ chain, h.hash e.key buckets.length = i) : Placed h (buckets.set i chain) := by
  intro j e he
  rw [List.length_set]
  rw [List.getD_eq_getElem?_getD, List.getElem?_set] at he
  split at he
  · rename_i hij
    subst hij
    split at he
    · exact hc e he
    · simp at he
  · exact hp j e (by rwa [List.getD_eq_getElem?_getD])

theorem methodRehash_spec (h : KeyHash E) (t : Table K D) (q) (hpos : 0 < t.buckets.length)
    (hp : Placed h t.buckets) (hq : ∀ e ∈ q, e.valid = true) :
    Placed h (t.methodRehash h q).buckets ∧ (t.methodRehash h q).entries.Perm (q ++ t.entries) := by
  induction q generalizing t with
  | nil => exact ⟨hp, .refl _⟩
  | cons e q ih =>
    rw [Table.methodRehash, if_pos (hq e (by simp))]
    set i := h.hash e.key t.buckets.length with hi
    have hlt : i < t.buckets.length := h.hash_lt e.key hpos
    obtain ⟨h1, h2⟩ := ih { t with buckets := t.buckets.set i (e :: t.buckets.getD i []) }
      (by simpa using hpos)
      (hp.set fun e' he' => by
        rcases List.mem_cons.mp he' with rfl | he'
        · rfl
        · exact hp i e' he')
      (fun e' he' => hq e' (List.mem_cons_of_mem _ he'))
    refine ⟨h1, h2.trans ?_⟩
    have hset := flatten_set_perm hlt (e :: t.buckets.getD i [])
    have hget := flatten_perm_getD hlt
    exact ((hset.trans (hget.symm.cons e)).append_left q).trans List.perm_middle

theorem foldl_methodRehash_spec (h : KeyHash E) (chains : List (List (Entry K D)))
    (t : Table K D) (hpos : 0 < t.buckets.length) (hp : Placed h t.buckets)
    (hq : ∀ e ∈ chains.flatten, e.valid = true) :
    Placed h (chains.foldl (Table.methodRehash h) t).buckets ∧
      (chains.foldl (Table.methodRehash h) t).entries.Perm (chains.flatten ++ t.entries) := by
  induction chains generalizing t with
  | nil => exact ⟨hp, .refl _⟩
  | cons q chains ih =>
    obtain ⟨h1, h2⟩ := methodRehash_spec h t q hpos hp
      (fun e he => hq e (List.mem_append_left _ he))
    obtain ⟨b, c, he, -, hb⟩ := Table.methodRehash_frame h t q
    obtain ⟨h3, h4⟩ := ih (t.methodRehash h q) (by rw [he]; simpa [hb] using hpos) h1
      (fun e he => hq e (List.mem_append_right _ he))
    refine ⟨h3, h4.trans ((h2.append_left _).trans ?_)⟩
    rw [List.flatten_cons, ← List.append_assoc]
    exact List.perm_append_comm.append_right _

theorem le_findPrime (size p) : p ≤ findPrime size p := by
  fun_induction findPrime with
  | case1 => exact le_rfl
  | case2 p _ ih => exact (lt_primeAfter p).le.trans ih

theorem resetTable_spec (t : Table K D) (hp : 0 < t.primes) :
    0 < t.resetTable.primes ∧ 0 < t.resetTable.buckets.length ∧ t.resetTable.entries = [] := by
  have hpos : 0 < t.resetTable.primes := by
    simp only [Table.resetTable]
    split
    · exact lt_of_lt_of_le (by norm_num) (le_findPrime _ 2)
    · exact lt_of_lt_of_le hp (le_findPrime _ _)
  have hb : t.resetTable.buckets = List.replicate t.resetTable.primes [] := rfl
  refine ⟨hpos, by rw [hb, List.length_replicate]; exact hpos, ?_⟩
  rw [Table.entries, hb, List.flatten_replicate_nil]

theorem placed_of_entries_nil (h : KeyHash E) {buckets : List (List (Entry K D))}
    (hb : buckets.flatten = []) : Placed h buckets := by
  intro i e he
  rw [List.flatten_eq_nil_iff] at hb
  by_cases hi : i < buckets.length
  · have := hb _ (List.getElem_mem hi)
    rw [List.getD_eq_getElem?_getD, List.getElem?_eq_getElem hi, Option.getD_some, this] at he
    simp at he
  · rw [List.getD_eq_getElem?_getD, List.getElem?_eq_none (by omega)] at he
    simp at he

theorem moves_of_rehash {t t' : Table K D} (hi : Inv h t)
    (hprimes : 0 < t'.primes) (hpos : 0 < t'.buckets.length) (hp : Placed h t'.buckets)
    (he : t'.entries.Perm t.entries) (hn : t'.needsRehash = false) : Moves h t t' where
  inv := {
    buckets_pos := hpos
    primes_pos := hprimes
    valid := fun e hm => hi.valid e (he.mem_iff.mp hm)
    distinct := hi.distinct.perm he.symm
    placed := fun _ => hp
    address := fun _ => hn }
  entries := he
  needsRehash := fun _ => hn

theorem moveToSize_moves (hi : Inv h t) (size) : Moves h t (t.moveToSize h size) := by
  obtain ⟨h1, h2, h3⟩ := resetTable_spec { t with growSize := size } hi.primes_pos
  set t0 : Table K D := { { t with growSize := size }.resetTable with needsRehash := false }
  obtain ⟨hp, he⟩ := foldl_methodRehash_spec h t.buckets t0 h2 (placed_of_entries_nil h h3) hi.valid
  obtain ⟨b, c, hf, -, hb⟩ := Table.foldl_methodRehash_frame h t.buckets t0
  have he' : (t.buckets.foldl (Table.methodRehash h) t0).entries.Perm t.entries := by
    have h4 : t0.entries = [] := h3
    rwa [h4, List.append_nil] at he
  refine moves_of_rehash hi ?_ ?_ hp he' ?_
  · rw [Table.moveToSize, hf]; exact h1
  · rw [Table.moveToSize, hf]; exact hb ▸ h2
  · rw [Table.moveToSize, hf]

theorem maybeShrinkTable_moves (hi : Inv h t) : Moves h t (t.maybeShrinkTable h) := by
  fun_induction Table.maybeShrinkTable with
  | case1 t _ ih =>
    have hm := moveToSize_moves hi (t.shrinkLoop t.growSize)
    exact hm.trans (ih hm.inv)
  | case2 t _ => exact .refl hi

theorem maybeGrowTable_moves (hi : Inv h t) : Moves h t (t.maybeGrowTable h) := by
  unfold Table.maybeGrowTable
  split
  · have h1 := moveToSize_moves hi (t.growLoop t.growSize)
    have h2 := h1.trans (maybeShrinkTable_moves h1.inv)
    exact ⟨⟨h2.inv.buckets_pos, h2.inv.primes_pos, h2.inv.valid, h2.inv.distinct, h2.inv.placed,
      h2.inv.address⟩, h2.entries, h2.needsRehash⟩
  · exact .refl hi

theorem foldl_append_perm (chains : List (List (Entry K D))) (acc) :
    (chains.foldl (fun entries p => p ++ entries) acc).Perm (chains.flatten ++ acc) := by
  induction chains generalizing acc with
  | nil => exact .refl _
  | cons c chains ih =>
    rw [List.foldl_cons, List.flatten_cons, List.append_assoc]
    refine (ih (c ++ acc)).trans ?_
    rw [← List.append_assoc, ← List.append_assoc]
    exact List.perm_append_comm.append_right _

theorem rehashTable_moves (hi : Inv h t) :
    Moves h t (t.rehashTable h) ∧ (t.rehashTable h).needsRehash = false := by
  set entries := t.extractTableEntries.1 with hentries
  set t0 : Table K D := { t.extractTableEntries.2 with needsRehash := false } with ht0
  have hperm : entries.Perm t.entries := by
    have := foldl_append_perm t.buckets []
    rwa [List.append_nil] at this
  have hnil : t0.entries = [] := by
    simp [ht0, Table.entries, Table.extractTableEntries]
  have hlen : t0.buckets.length = t.buckets.length := by
    simp [ht0, Table.extractTableEntries]
  obtain ⟨hp, he⟩ := methodRehash_spec h t0 entries (hlen ▸ hi.buckets_pos)
    (placed_of_entries_nil h hnil) (fun e hm => hi.valid e (hperm.mem_iff.mp hm))
  obtain ⟨b, c, hf, -, hb⟩ := Table.methodRehash_frame h t0 entries
  rw [hnil, List.append_nil] at he
  have hm : Moves h t (t0.methodRehash h entries) := by
    refine moves_of_rehash hi ?_ ?_ hp (he.trans hperm) ?_
    · rw [hf]; exact hi.primes_pos
    · rw [hf]; simpa [hb, hlen] using hi.buckets_pos
    · rw [hf]
  have hs := maybeShrinkTable_moves hm.inv
  refine ⟨hm.trans hs, hs.needsRehash ?_⟩
  rw [hf]

theorem computeHash_moves (hi : Inv h t) (key) :
    Moves h t (t.computeHash h key).1 ∧ (t.computeHash h key).1.needsRehash = false ∧
      (t.computeHash h key).2 = h.hash key (t.computeHash h key).1.buckets.length := by
  unfold Table.computeHash Table.computeAddressHash
  split
  · split
    · obtain ⟨h1, h2⟩ := rehashTable_moves hi
      exact ⟨h1, h2, rfl⟩
    · rename_i hn
      exact ⟨.refl hi, by simpa using hn, rfl⟩
  · rename_i ha
    exact ⟨.refl hi, hi.address (by simpa using ha), rfl⟩

/-! ## The map -/

end

abbrev Contents (K D : Type) := K → Option (K × D)

namespace Contents
variable {K D : Type} (E : KeyEquiv K) (m : Contents K D)

def set (key : K) (datum : D) : Contents K D := fun x =>
  if E.eq key x then some (((m key).map Prod.fst).getD key, datum) else m x

def delete (key : K) : Contents K D := fun x => if E.eq key x then none else m x

def prune (predicate : K → D → Bool) : Contents K D := fun x =>
  (m x).filter fun (k, d) => !predicate k d

def map (procedure : K → D → D) : Contents K D := fun x =>
  (m x).map fun (k, d) => (k, procedure k d)

def get (key : K) : Option D := (m key).map Prod.snd

/-- `visited` holds each key of the map exactly once, with its datum. -/
structure Enumerates (visited : List (K × D)) : Prop where
  content : ∀ x, m x = lookup E Prod.fst visited x
  once : ∀ x, (visited.filter fun a => E.eq a.1 x).length = if (m x).isSome then 1 else 0

end Contents

section
variable {K D : Type} {E : KeyEquiv K} {h : KeyHash E} {t : Table K D}

def Entry.pair (e : Entry K D) : K × D := (e.key, e.datum)

def Table.contents (E : KeyEquiv K) (t : Table K D) : Contents K D := fun x =>
  (lookup E Entry.key t.entries x).map Entry.pair

theorem Moves.contents {t t' : Table K D} (hm : Moves h t t') : t'.contents E = t.contents E := by
  funext x
  rw [Table.contents, Table.contents, lookup_perm hm.inv.distinct hm.entries]

structure BucketOf (h : KeyHash E) (t : Table K D) (key : K) (i : Nat)
    (chain rest : List (Entry K D)) : Prop where
  lt : i < t.buckets.length
  getD : t.buckets.getD i [] = chain
  entries : t.entries.Perm (chain ++ rest)
  set : ∀ c, (t.buckets.set i c).flatten.Perm (c ++ rest)
  placed : ∀ e ∈ chain, h.hash e.key t.buckets.length = i
  hash : h.hash key t.buckets.length = i
  outside : ∀ e ∈ rest, E.eq e.key key = false

theorem exists_bucketOf (hi : Inv h t) (hn : t.needsRehash = false) (key) :
    ∃ rest, BucketOf h t key (h.hash key t.buckets.length)
      (t.buckets.getD (h.hash key t.buckets.length) []) rest := by
  have hlt := h.hash_lt key hi.buckets_pos
  refine ⟨(t.buckets.eraseIdx (h.hash key t.buckets.length)).flatten, hlt, rfl,
    flatten_perm_getD hlt, flatten_set_perm hlt, hi.placed hn _, rfl, ?_⟩
  intro e he
  obtain ⟨chain, hchain, hmem⟩ := List.mem_flatten.mp he
  obtain ⟨j, hj, hne, rfl⟩ := List.mem_eraseIdx_iff_getElem.mp hchain
  by_contra hc
  have hplace := hi.placed hn j e (by
    rw [List.getD_eq_getElem?_getD, List.getElem?_eq_getElem hj]; exact hmem)
  rw [h.congr (by simpa using hc)] at hplace
  exact hne hplace.symm

theorem BucketOf.lookup_chain {key i chain rest} (hb : BucketOf h t key i chain rest)
    (hi : Inv h t) : lookup E Entry.key t.entries key = lookup E Entry.key chain key := by
  rw [lookup_perm hi.distinct hb.entries, lookup_append,
    lookup_eq_none.mpr hb.outside, Option.or_none]

theorem BucketOf.chain_valid {key i chain rest} (hb : BucketOf h t key i chain rest)
    (hi : Inv h t) : ∀ e ∈ chain, e.valid = true := fun e he =>
  hi.valid e (hb.entries.mem_iff.mpr (List.mem_append_left _ he))

theorem BucketOf.distinct {key i chain rest} (hb : BucketOf h t key i chain rest) (hi : Inv h t) :
    Distinct E Entry.key (chain ++ rest) :=
  hi.distinct.perm hb.entries

theorem BucketOf.inv_set {key i chain rest chain'} (hb : BucketOf h t key i chain rest)
    (hi : Inv h t) (hv : ∀ e ∈ chain', e.valid = true)
    (hp : ∀ e ∈ chain', h.hash e.key t.buckets.length = i)
    (hd : Distinct E Entry.key (chain' ++ rest)) (hn : t.needsRehash = false) (count) :
    Inv h { t with buckets := t.buckets.set i chain', count } where
  buckets_pos := by simpa using hi.buckets_pos
  primes_pos := hi.primes_pos
  valid := by
    intro e he
    rcases List.mem_append.mp ((hb.set chain').mem_iff.mp he) with he | he
    · exact hv e he
    · exact hi.valid e (hb.entries.mem_iff.mpr (List.mem_append_right _ he))
  distinct := hd.perm (hb.set chain').symm
  placed := fun hn => (hi.placed hn).set hp
  address := fun _ => hn

theorem BucketOf.contents_set {key i chain rest chain'} (hb : BucketOf h t key i chain rest)
    (hd : Distinct E Entry.key (chain' ++ rest)) (count) :
    Table.contents E { t with buckets := t.buckets.set i chain', count } = fun x =>
      (lookup E Entry.key (chain' ++ rest) x).map Entry.pair := by
  funext x
  rw [lookup_perm hd (hb.set chain').symm]
  rfl

/-! ## One operation at a time -/

theorem getLoop_spec (key : K) : ∀ {chain : List (Entry K D)}, (∀ e ∈ chain, e.valid = true) →
    Table.getLoop E key chain = (lookup E Entry.key chain key).map Entry.datum
  | [], _ => rfl
  | e :: p, hv => by
    have ih := getLoop_spec key fun e' he' => hv e' (List.mem_cons_of_mem _ he')
    rw [Table.getLoop, hv e (by simp), Bool.true_and, lookup_cons, ih]
    split <;> rfl

theorem methodGet_spec (hi : Inv h t) (key) :
    Inv h (t.methodGet h key).1 ∧ (t.methodGet h key).1.contents E = t.contents E ∧
      (t.methodGet h key).2 = (t.contents E).get key := by
  obtain ⟨hm, hn, hh⟩ := computeHash_moves hi key
  obtain ⟨rest, hb⟩ := exists_bucketOf hm.inv hn key
  refine ⟨hm.inv, hm.contents, ?_⟩
  rw [← hm.contents, Contents.get, Table.contents, hb.lookup_chain hm.inv]
  simp only [Table.methodGet]
  rw [hh, getLoop_spec key (hb.chain_valid hm.inv), Option.map_map]
  rfl

/-- The change `method:put!` makes to an entry for the key. -/
def Entry.store (E : KeyEquiv K) (key : K) (datum : D) (e : Entry K D) : Entry K D :=
  if E.eq e.key key then { e with datum } else e

@[simp] theorem Entry.store_key (key datum) (e : Entry K D) :
    (e.store E key datum).key = e.key := by
  unfold Entry.store; split <;> rfl

@[simp] theorem Entry.store_valid (key datum) (e : Entry K D) :
    (e.store E key datum).valid = e.valid := by
  unfold Entry.store; split <;> rfl

theorem map_store_of_absent {key datum} {l : List (Entry K D)}
    (hl : ∀ e ∈ l, E.eq e.key key = false) : l.map (Entry.store E key datum) = l := by
  conv => rhs; rw [← List.map_id l]
  refine List.map_congr_left fun e he => ?_
  rw [Entry.store, hl e he]
  rfl

theorem absent_of_distinct {key : K} {e : Entry K D} {p : List (Entry K D)}
    (hd : ∀ b ∈ p, E.eq e.key b.key = false) (he : E.eq e.key key = true) :
    ∀ b ∈ p, E.eq b.key key = false := by
  intro b hb
  by_contra hc
  have := hd b hb
  rw [E.trans he (E.symm (by simpa using hc))] at this
  cases this

theorem putLoop_spec (key : K) (datum : D) : ∀ {chain : List (Entry K D)},
    (∀ e ∈ chain, e.valid = true) → Distinct E Entry.key chain →
    (lookup E Entry.key chain key = none ∧
      Table.putLoop E key datum chain = (chain ++ [⟨key, datum, true⟩], true)) ∨
    (∃ e, lookup E Entry.key chain key = some e ∧
      Table.putLoop E key datum chain = (chain.map (Entry.store E key datum), false))
  | [], _, _ => .inl ⟨rfl, rfl⟩
  | e :: p, hv, hd => by
    obtain ⟨he, hp⟩ := distinct_cons.mp hd
    rw [Table.putLoop, hv e (by simp), Bool.true_and, lookup_cons]
    cases hk : E.eq e.key key with
    | true =>
      refine .inr ⟨e, rfl, ?_⟩
      rw [if_pos rfl, List.map_cons, map_store_of_absent (absent_of_distinct he hk), Entry.store,
        if_pos hk, hv e (by simp)]
    | false =>
      have hs : e.store E key datum = e := by rw [Entry.store, hk]; rfl
      rcases putLoop_spec key datum (fun b hb => hv b (List.mem_cons_of_mem _ hb)) hp with
        ⟨h1, h2⟩ | ⟨b, h1, h2⟩
      · exact .inl ⟨h1, by rw [h2]; rfl⟩
      · exact .inr ⟨b, h1, by rw [h2, List.map_cons, hs]; rfl⟩

theorem removeLoop_spec (key : K) : ∀ {chain : List (Entry K D)},
    (∀ e ∈ chain, e.valid = true) → Distinct E Entry.key chain →
    (lookup E Entry.key chain key = none ∧ Table.removeLoop E key chain = none) ∨
    (∃ e, lookup E Entry.key chain key = some e ∧
      Table.removeLoop E key chain = some (chain.filter fun e => !E.eq e.key key))
  | [], _, _ => .inl ⟨rfl, rfl⟩
  | e :: p, hv, hd => by
    obtain ⟨he, hp⟩ := distinct_cons.mp hd
    rw [Table.removeLoop, hv e (by simp), Bool.true_and, lookup_cons]
    cases hk : E.eq e.key key with
    | true =>
      refine .inr ⟨e, rfl, ?_⟩
      have hkeep : p.filter (fun e => !E.eq e.key key) = p :=
        List.filter_eq_self.mpr fun b hb => by rw [absent_of_distinct he hk b hb]; rfl
      rw [if_pos rfl, List.filter_cons, hk, hkeep]
      rfl
    | false =>
      rcases removeLoop_spec key (fun b hb => hv b (List.mem_cons_of_mem _ hb)) hp with
        ⟨h1, h2⟩ | ⟨b, h1, h2⟩
      · exact .inl ⟨h1, by rw [h2]; rfl⟩
      · refine .inr ⟨b, h1, ?_⟩
        rw [h2, List.filter_cons, hk]
        rfl

section Put
variable {key : K} {i : Nat} {chain rest : List (Entry K D)}

theorem BucketOf.put_absent (hb : BucketOf h t key i chain rest) (hi : Inv h t)
    (hn : t.needsRehash = false) (hnone : lookup E Entry.key chain key = none) (datum count) :
    Inv h { t with buckets := t.buckets.set i (chain ++ [⟨key, datum, true⟩]), count } ∧
      Table.contents E
          { t with buckets := t.buckets.set i (chain ++ [⟨key, datum, true⟩]), count } =
        (t.contents E).set E key datum := by
  set new : Entry K D := ⟨key, datum, true⟩ with hnew
  have habs : ∀ b ∈ chain ++ rest, E.eq key b.key = false := by
    intro b hb'
    rw [E.comm]
    rcases List.mem_append.mp hb' with hb' | hb'
    · exact lookup_eq_none.mp hnone b hb'
    · exact hb.outside b hb'
  have hperm : (chain ++ [new] ++ rest).Perm (new :: (chain ++ rest)) := by
    rw [List.append_assoc]; exact List.perm_middle
  have hd : Distinct E Entry.key (chain ++ [new] ++ rest) :=
    (distinct_cons.mpr ⟨habs, hb.distinct hi⟩).perm hperm.symm
  refine ⟨hb.inv_set hi ?_ ?_ hd hn _, ?_⟩
  · intro b hb'
    rcases List.mem_append.mp hb' with hb' | hb'
    · exact hb.chain_valid hi b hb'
    · rw [List.mem_singleton.mp hb']
  · intro b hb'
    rcases List.mem_append.mp hb' with hb' | hb'
    · exact hb.placed b hb'
    · rw [List.mem_singleton.mp hb']
      exact hb.hash
  · have hkey : t.contents E key = none := by
      rw [Table.contents, hb.lookup_chain hi, hnone]; rfl
    rw [hb.contents_set hd]
    funext x
    rw [Contents.set, hkey, lookup_perm hd hperm, lookup_cons, Table.contents,
      lookup_perm hi.distinct hb.entries]
    split <;> rfl

theorem lookup_store {l} (hl : Distinct E Entry.key l) {e}
    (he : lookup E Entry.key l key = some e) (datum : D) (x : K) :
    ((lookup E Entry.key l x).map (Entry.store E key datum)).map Entry.pair =
      if E.eq key x then some (e.key, datum) else (lookup E Entry.key l x).map Entry.pair := by
  obtain ⟨hmem, hek⟩ := (lookup_eq_some hl).mp he
  cases hkx : E.eq key x with
  | true =>
    rw [(lookup_eq_some hl).mpr ⟨hmem, E.trans hek hkx⟩, if_pos rfl, Option.map_some,
      Option.map_some, Entry.store, if_pos hek]
    rfl
  | false =>
    simp only [Bool.false_eq_true, if_false, Option.map_map]
    cases hlx : lookup E Entry.key l x with
    | none => rfl
    | some b =>
      have hbx := ((lookup_eq_some hl).mp hlx).2
      have hbk : E.eq b.key key = false := by
        by_contra hc
        rw [E.trans (E.symm (by simpa using hc)) hbx] at hkx
        cases hkx
      simp [Entry.store, hbk]

theorem BucketOf.put_present (hb : BucketOf h t key i chain rest) (hi : Inv h t)
    (hn : t.needsRehash = false) {e} (he : lookup E Entry.key chain key = some e) (datum : D) :
    Inv h { t with buckets := t.buckets.set i (chain.map (Entry.store E key datum)) } ∧
      Table.contents E
          { t with buckets := t.buckets.set i (chain.map (Entry.store E key datum)) } =
        (t.contents E).set E key datum := by
  have hmap : chain.map (Entry.store E key datum) ++ rest =
      (chain ++ rest).map (Entry.store E key datum) := by
    rw [List.map_append, map_store_of_absent hb.outside]
  have hd : Distinct E Entry.key (chain.map (Entry.store E key datum) ++ rest) := by
    rw [hmap]
    exact (hb.distinct hi).map fun b => b.store_key key datum
  have hlookup : lookup E Entry.key t.entries key = some e := (hb.lookup_chain hi).trans he
  refine ⟨hb.inv_set hi ?_ ?_ hd hn _, (hb.contents_set hd t.count).trans ?_⟩
  · intro b hb'
    obtain ⟨b', hb'', rfl⟩ := List.mem_map.mp hb'
    rw [Entry.store_valid]
    exact hb.chain_valid hi b' hb''
  · intro b hb'
    obtain ⟨b', hb'', rfl⟩ := List.mem_map.mp hb'
    rw [Entry.store_key]
    exact hb.placed b' hb''
  · have hkey : t.contents E key = some e.pair := by rw [Table.contents, hlookup]; rfl
    funext x
    rw [hmap, lookup_map fun b => b.store_key key datum, ← lookup_perm hi.distinct hb.entries,
      lookup_store hi.distinct hlookup, Contents.set, hkey, Table.contents]
    rfl

end Put

theorem methodPut_spec (hi : Inv h t) (key datum) : Inv h (t.methodPut h key datum) ∧
      (t.methodPut h key datum).contents E = (t.contents E).set E key datum := by
  obtain ⟨hm, hn, hh⟩ := computeHash_moves hi key
  rw [← hm.contents]
  simp only [Table.methodPut, hh]
  generalize (t.computeHash h key).1 = t at hm hn hh ⊢
  have hi := hm.inv
  obtain ⟨rest, hb⟩ := exists_bucketOf hi hn key
  rcases putLoop_spec key datum (hb.chain_valid hi)
    ((hb.distinct hi).sublist (List.sublist_append_left _ _)) with ⟨h1, h2⟩ | ⟨e, h1, h2⟩
  · obtain ⟨hinv, hcontents⟩ := hb.put_absent hi hn h1 datum (t.count + 1)
    rw [h2]
    simp only [if_true]
    have hg := maybeGrowTable_moves hinv
    exact ⟨hg.inv, hg.contents.trans hcontents⟩
  · rw [h2]
    simp only [Bool.false_eq_true, if_false]
    exact hb.put_present hi hn h1 datum

theorem methodRemove_spec (hi : Inv h t) (key) : Inv h (t.methodRemove h key).1 ∧
      (t.methodRemove h key).1.contents E = (t.contents E).delete E key ∧
      (t.methodRemove h key).2 = ((t.contents E).get key).isSome := by
  obtain ⟨hm, hn, hh⟩ := computeHash_moves hi key
  rw [← hm.contents]
  simp only [Table.methodRemove, hh]
  generalize (t.computeHash h key).1 = t at hm hn hh ⊢
  have hi := hm.inv
  obtain ⟨rest, hb⟩ := exists_bucketOf hi hn key
  have hd := hb.distinct hi
  have hv := hb.chain_valid hi
  have hl := hb.lookup_chain hi
  set i := h.hash key t.buckets.length
  set chain := t.buckets.getD i []
  have hfilter : ∀ x, ((t.contents E).delete E key) x =
      (lookup E Entry.key ((chain ++ rest).filter fun e => !E.eq e.key key) x).map Entry.pair := by
    intro x
    rw [lookup_filter hd, Contents.delete, Table.contents, lookup_perm hi.distinct hb.entries]
    cases hlx : lookup E Entry.key (chain ++ rest) x with
    | none => simp
    | some b =>
      have hbx := ((lookup_eq_some hd).mp hlx).2
      rw [← E.congr_right hbx key, E.comm key b.key]
      cases hbk : E.eq b.key key <;> simp [hbk]
  have hget : (t.contents E).get key = (lookup E Entry.key chain key).map Entry.datum := by
    rw [Contents.get, Table.contents, hl, Option.map_map]
    rfl
  have hkeep : rest.filter (fun e => !E.eq e.key key) = rest :=
    List.filter_eq_self.mpr fun b hb' => by rw [hb.outside b hb']; rfl
  rcases removeLoop_spec key hv (hd.sublist (List.sublist_append_left _ _)) with
    ⟨h1, h2⟩ | ⟨e, h1, h2⟩
  · rw [h2]
    refine ⟨hi, ?_, by rw [hget, h1]; rfl⟩
    funext x
    have hall : (chain ++ rest).filter (fun e => !E.eq e.key key) = chain ++ rest := by
      refine List.filter_eq_self.mpr fun b hb' => ?_
      rcases List.mem_append.mp hb' with hb' | hb'
      · rw [lookup_eq_none.mp h1 b hb']; rfl
      · rw [hb.outside b hb']; rfl
    rw [hfilter, hall, Table.contents, lookup_perm hi.distinct hb.entries]
  · have hchain : (chain.filter fun e => !E.eq e.key key) ++ rest =
        (chain ++ rest).filter fun e => !E.eq e.key key := by
      rw [List.filter_append, hkeep]
    have hd' : Distinct E Entry.key ((chain.filter fun e => !E.eq e.key key) ++ rest) := by
      rw [hchain]; exact hd.filter _
    have hinv := hb.inv_set hi (fun b hb' => hv b (List.mem_filter.mp hb').1)
      (fun b hb' => hb.placed b (List.mem_filter.mp hb').1) hd' hn (t.count - 1)
    have hs := maybeShrinkTable_moves hinv
    rw [h2]
    refine ⟨hs.inv, ?_, by rw [hget, h1]; rfl⟩
    simp only
    rw [hs.contents, hb.contents_set hd']
    funext x
    rw [hfilter, hchain]

/-! ### Operations on every bucket -/

theorem mapLoop_spec (procedure) : ∀ {chain : List (Entry K D)},
    (∀ e ∈ chain, e.valid = true) → (Table.mapLoop procedure chain).1 =
      chain.map fun e => { e with datum := procedure e.key e.datum }
  | [], _ => rfl
  | e :: p, hv => by
    have ih := mapLoop_spec procedure fun b hb => hv b (List.mem_cons_of_mem _ hb)
    simp only [Table.mapLoop, hv e (by simp), if_true, ih, List.map_cons]

theorem pruneLoop_spec (predicate : K → D → Bool) : ∀ {chain : List (Entry K D)},
    (∀ e ∈ chain, e.valid = true) → (Table.pruneLoop predicate chain).1 =
      chain.filter fun e => !predicate e.key e.datum
  | [], _ => rfl
  | e :: p, hv => by
    have ih := pruneLoop_spec predicate fun b hb => hv b (List.mem_cons_of_mem _ hb)
    simp only [Table.pruneLoop, hv e (by simp), Bool.true_and, List.filter_cons]
    split
    · rw [ih]
    · exact ih

theorem inv_perBucket (hi : Inv h t) {loop : List (Entry K D) → List (Entry K D) × Nat}
    (hsub : ∀ chain ∈ t.buckets, ∀ e ∈ (loop chain).1, ∃ e' ∈ chain, e'.key = e.key ∧
      e'.valid = e.valid)
    (hd : Distinct E Entry.key (t.perBucket loop).entries) : Inv h (t.perBucket loop) where
  buckets_pos := by simpa [Table.perBucket] using hi.buckets_pos
  primes_pos := hi.primes_pos
  valid := by
    intro e he
    obtain ⟨chain', hc', he⟩ := List.mem_flatten.mp he
    obtain ⟨chain, hc, rfl⟩ := List.mem_map.mp hc'
    obtain ⟨e', he', -, hv⟩ := hsub chain hc e he
    rw [← hv]
    exact hi.valid e' (List.mem_flatten.mpr ⟨chain, hc, he'⟩)
  distinct := hd
  placed := by
    intro hn i e he
    have hlen : (t.perBucket loop).buckets.length = t.buckets.length := by simp [Table.perBucket]
    rw [hlen]
    by_cases hlt : i < t.buckets.length
    · have hget : (t.perBucket loop).buckets.getD i [] = (loop (t.buckets.get ⟨i, hlt⟩)).1 := by
        simp [Table.perBucket, List.getD_eq_getElem?_getD, hlt]
      rw [hget] at he
      obtain ⟨e', he', hk, -⟩ := hsub _ (List.get_mem _ _) e he
      rw [← hk]
      refine hi.placed hn i e' ?_
      simpa [List.getD_eq_getElem?_getD, hlt] using he'
    · rw [List.getD_eq_getElem?_getD, List.getElem?_eq_none (by omega)] at he
      simp at he
  address := hi.address

theorem chain_valid_of_inv (hi : Inv h t) {chain} (hc : chain ∈ t.buckets) :
    ∀ e ∈ chain, e.valid = true :=
  fun e he => hi.valid e (List.mem_flatten.mpr ⟨chain, hc, he⟩)

theorem hashTableMap_spec (hi : Inv h t) (procedure) :
    Inv h (t.hashTableMap h procedure) ∧
      (t.hashTableMap h procedure).contents E = (t.contents E).map procedure := by
  set f : Entry K D → Entry K D := fun e => { e with datum := procedure e.key e.datum }
  have hent : (t.methodMap procedure).entries = t.entries.map f := by
    simp only [Table.entries, Table.methodMap, Table.perBucket, List.map_flatten]
    congr 1
    exact List.map_congr_left fun chain hc => mapLoop_spec procedure (chain_valid_of_inv hi hc)
  have hinv : Inv h (t.methodMap procedure) := by
    refine inv_perBucket hi ?_ ?_
    · intro chain hc e he
      rw [mapLoop_spec procedure (chain_valid_of_inv hi hc)] at he
      obtain ⟨e', he', rfl⟩ := List.mem_map.mp he
      exact ⟨e', he', rfl, rfl⟩
    · change Distinct E Entry.key (t.methodMap procedure).entries
      rw [hent]
      exact hi.distinct.map fun _ => rfl
  have hs := maybeShrinkTable_moves hinv
  refine ⟨hs.inv, hs.contents.trans ?_⟩
  funext x
  rw [Table.contents, hent, lookup_map (fun _ => rfl), Contents.map, Table.contents,
    Option.map_map, Option.map_map]
  rfl

theorem hashTablePrune_spec (hi : Inv h t) (predicate) :
    Inv h (t.hashTablePrune h predicate) ∧
      (t.hashTablePrune h predicate).contents E = (t.contents E).prune predicate := by
  have hent : (t.methodPrune predicate).entries =
      t.entries.filter fun e => !predicate e.key e.datum := by
    simp only [Table.entries, Table.methodPrune, Table.perBucket, List.filter_flatten]
    congr 1
    exact List.map_congr_left fun chain hc => pruneLoop_spec predicate (chain_valid_of_inv hi hc)
  have hinv : Inv h (t.methodPrune predicate) := by
    refine inv_perBucket hi ?_ ?_
    · intro chain hc e he
      rw [pruneLoop_spec predicate (chain_valid_of_inv hi hc)] at he
      exact ⟨e, (List.mem_filter.mp he).1, rfl, rfl⟩
    · change Distinct E Entry.key (t.methodPrune predicate).entries
      rw [hent]
      exact hi.distinct.filter _
  have hs := maybeShrinkTable_moves hinv
  refine ⟨hs.inv, hs.contents.trans ?_⟩
  funext x
  rw [Table.contents, hent, lookup_filter hi.distinct, Contents.prune, Table.contents]
  cases lookup E Entry.key t.entries x with
  | none => rfl
  | some e => simp only [Option.filter_some, Option.map_some, Entry.pair]; split <;> rfl

theorem resetTable_inv (h : KeyHash E) (hp : 0 < t.primes)
    (ha : t.rehashAfterGc = false → t.needsRehash = false) :
    Inv h t.resetTable ∧ t.resetTable.contents E = fun _ => none := by
  obtain ⟨h1, h2, h3⟩ := resetTable_spec t hp
  refine ⟨⟨h2, h1, by rw [h3]; simp, by rw [h3]; exact distinct_nil,
    fun _ => placed_of_entries_nil h h3, ha⟩, ?_⟩
  funext x
  rw [Table.contents, h3]
  rfl

theorem hashTableClear_spec (hi : Inv h t) :
    Inv h t.hashTableClear ∧ t.hashTableClear.contents E = fun _ => none := by
  unfold Table.hashTableClear
  cases t.initialSizeInEffect with
  | true => exact resetTable_inv h hi.primes_pos hi.address
  | false => exact resetTable_inv h hi.primes_pos hi.address

theorem makeHashTable_spec (h : KeyHash E) (rehashAfterGc initialSize) :
    Inv h (Table.makeHashTable rehashAfterGc initialSize : Table K D) ∧
      (Table.makeHashTable rehashAfterGc initialSize : Table K D).contents E = fun _ => none := by
  unfold Table.makeHashTable
  cases initialSize with
  | none => exact resetTable_inv h (by simp) (by simp)
  | some size =>
    simp only
    split
    · exact resetTable_inv h (by simp) (by simp)
    · exact resetTable_inv h (by simp) (by simp)

theorem methodFold_spec {A : Type} (hv : ∀ e ∈ t.entries, e.valid = true)
    (kons : K → D → A → A) (knil : A) : t.methodFold kons knil =
      (t.entries.map Entry.pair).foldl (fun acc a => kons a.1 a.2 acc) knil := by
  unfold Table.methodFold
  simp only [Table.entries] at hv ⊢
  generalize t.buckets = buckets at hv ⊢
  induction buckets generalizing knil with
  | nil => rfl
  | cons chain buckets ih =>
    have hc : chain.foldl (fun acc e => if e.valid then kons e.key e.datum acc else acc) knil =
        (chain.map Entry.pair).foldl (fun acc a => kons a.1 a.2 acc) knil := by
      rw [List.foldl_map]
      refine List.foldl_ext _ _ _ fun acc e he => ?_
      rw [if_pos (hv e (List.mem_append_left _ he))]
      rfl
    rw [List.foldl_cons, List.flatten_cons, List.map_append, List.foldl_append, hc,
      ih _ (fun e he => hv e (List.mem_append_right _ he))]

theorem enumerates_entries (hi : Inv h t) :
    (t.contents E).Enumerates E (t.entries.map Entry.pair) := by
  have hc : ∀ x, t.contents E x = lookup E Prod.fst (t.entries.map Entry.pair) x := by
    intro x
    rw [lookup_map (f := Entry.pair) (fun _ => rfl)]
    rfl
  refine ⟨hc, fun x => ?_⟩
  have hd : Distinct E Prod.fst (t.entries.map Entry.pair) := hi.distinct.map fun _ => rfl
  rw [hc]
  exact length_filter_key hd x

end

end MitScheme.Runtime.HashTable
