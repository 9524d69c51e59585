import Mathlib.Data.Rat.Floor
import Mathlib.Data.Nat.Prime.Infinite
import MitScheme.Lib.Assoc

/-! # Hash tables

The open-hashing tables of `hash-table.scm`: bucket chains, resizing by the
count of entries, and the lazy rehash of tables whose hash function reads
addresses. A weak entry whose key the collector has reclaimed is *broken*;
strong entries never are. -/

namespace MitScheme.Runtime.HashTable
open Lib.Assoc

/-! ## The table -/

structure Entry (K D : Type) where
  key : K
  datum : D
  valid : Bool

/-- A key hash that respects `key=?` and stays below its modulus. An
address-hash table gets a new one at every collection. -/
structure KeyHash {K : Type} (E : KeyEquiv K) where
  hash : K → Nat → Nat
  hash_lt : ∀ k {modulus}, 0 < modulus → hash k modulus < modulus
  congr : ∀ {j k}, E.eq j k = true → ∀ modulus, hash j modulus = hash k modulus

/-- What `set-hash-table-rehash-threshold!` accepts. -/
structure RehashThreshold where
  val : ℚ
  pos : 0 < val
  le_one : val ≤ 1

/-- What `set-hash-table-rehash-size!` accepts. -/
inductive RehashSize
  | exact (n : Int) (pos : 0 < n)
  | real (q : ℚ) (gt_one : 1 < q)

/-- The record `hash-table`. Of the stream `primes` only its first prime is
kept. -/
structure Table (K D : Type) where
  rehashAfterGc : Bool
  rehashThreshold : RehashThreshold
  rehashSize : RehashSize
  count : Nat
  growSize : Int
  shrinkSize : Int
  buckets : List (List (Entry K D))
  primes : Nat
  needsRehash : Bool
  initialSizeInEffect : Bool

/-- The object `error:bad-range-argument` is called with. -/
inductive BadRange (K : Type)
  | hashTableRef (key : K)
  | hashTableSet (plist : List K)

def minimumSize : Int := 4
def defaultRehashThreshold : RehashThreshold := ⟨1, by norm_num, by norm_num⟩
def defaultRehashSize : RehashSize := .real 2 (by norm_num)

/-- `round->exact`: to the nearest integer, ties to even. -/
def roundToExact (q : ℚ) : Int :=
  let floor := ⌊q⌋
  if q - floor < 1 / 2 then floor
  else if 1 / 2 < q - floor then floor + 1
  else if floor % 2 = 0 then floor
  else floor + 1

/-! ## Resizing -/

section
variable {K D : Type}

/-- The prime that follows `p` in `prime-numbers-stream`. -/
def primeAfter (p : Nat) : Nat := Nat.find (Nat.exists_infinite_primes (p + 1))

theorem lt_primeAfter (p) : p < primeAfter p :=
  (Nat.find_spec (Nat.exists_infinite_primes (p + 1))).1

/-- The search of `reset-table!` along the stream of primes from `p` on. -/
def findPrime (size : Int) (p : Nat) : Nat :=
  if size ≤ p then p else findPrime size (primeAfter p)
termination_by (size - p).toNat
decreasing_by have := lt_primeAfter p; omega

def incrementSize (rehashSize : RehashSize) (size : Int) : Int :=
  match rehashSize with
  | .exact n _ => size + n
  | .real q _ =>
    let size' := roundToExact (size * q)
    if size' > size then size' else size + 1

def decrementSize (rehashSize : RehashSize) (size : Int) : Int :=
  match rehashSize with
  | .exact n _ => size - n
  | .real q _ =>
    let size' := roundToExact (size / q)
    if size' < size then size' else size - 1

theorem lt_incrementSize (r size) : size < incrementSize r size := by
  cases r with
  | exact n pos => simpa [incrementSize] using pos
  | real q _ => simp only [incrementSize]; split <;> omega

theorem decrementSize_lt (r size) : decrementSize r size < size := by
  cases r with
  | exact n pos => simpa [decrementSize] using pos
  | real q _ => simp only [decrementSize]; split <;> omega

def computeShrinkSize (rehashSize : RehashSize) (size : Int) : Int :=
  if size ≤ minimumSize then 0
  else max 0 (decrementSize rehashSize (decrementSize rehashSize size))

namespace Table

def resetShrinkSize (t : Table K D) : Table K D :=
  { t with shrinkSize := computeShrinkSize t.rehashSize t.growSize }

def resetTable (t : Table K D) : Table K D :=
  let t := t.resetShrinkSize
  let size := roundToExact (t.growSize / t.rehashThreshold.val)
  let primes := findPrime size (if size < t.primes then 2 else t.primes)
  { t with primes, buckets := List.replicate primes [] }

/-- `method:rehash!` on one chain: each entry goes to the head of its bucket,
and broken entries are dropped. -/
def methodRehash {E : KeyEquiv K} (h : KeyHash E) (t : Table K D) : List (Entry K D) → Table K D
  | [] => t
  | e :: q =>
    if e.valid then
      let hash := h.hash e.key t.buckets.length
      methodRehash h { t with buckets := t.buckets.set hash (e :: t.buckets.getD hash []) } q
    else methodRehash h { t with count := t.count - 1 } q

/-- `new-size!` up to its last call. -/
def moveToSize {E : KeyEquiv K} (h : KeyHash E) (t : Table K D) (size : Int) : Table K D :=
  let oldBuckets := t.buckets
  let t := { t with growSize := size }.resetTable
  oldBuckets.foldl (methodRehash h) { t with needsRehash := false }

/-- The loop of `maybe-shrink-table!` that finds the new size. -/
def shrinkLoop (t : Table K D) (size : Int) : Int :=
  if size ≤ minimumSize then minimumSize
  else if t.count < computeShrinkSize t.rehashSize size then
    shrinkLoop t (decrementSize t.rehashSize size)
  else size
termination_by size.toNat
decreasing_by
  have := decrementSize_lt t.rehashSize size
  simp only [minimumSize, not_le] at *
  omega

theorem shrinkLoop_spec (t : Table K D) (size) :
    t.shrinkLoop size = minimumSize ∨
      computeShrinkSize t.rehashSize (t.shrinkLoop size) ≤ t.count := by
  fun_induction shrinkLoop with
  | case1 => exact .inl rfl
  | case2 _ _ _ ih => exact ih
  | case3 _ _ h => exact .inr (by omega)

theorem methodRehash_frame {E} (h : KeyHash E) (t : Table K D) (q) :
    ∃ buckets count, methodRehash h t q = { t with buckets, count } ∧
      count ≤ t.count ∧ buckets.length = t.buckets.length := by
  induction q generalizing t with
  | nil => exact ⟨t.buckets, t.count, rfl, le_rfl, rfl⟩
  | cons e q ih =>
    rw [methodRehash]
    split
    · obtain ⟨b, c, he, hc, hb⟩ := ih { t with
        buckets := t.buckets.set _ (e :: t.buckets.getD (h.hash e.key t.buckets.length) []) }
      exact ⟨b, c, he, hc, by rw [hb, List.length_set]⟩
    · obtain ⟨b, c, he, hc, hb⟩ := ih { t with count := t.count - 1 }
      exact ⟨b, c, he, hc.trans (Nat.sub_le _ _), hb⟩

theorem foldl_methodRehash_frame {E} (h : KeyHash E) (chains : List (List (Entry K D)))
    (t : Table K D) : ∃ buckets count,
      chains.foldl (methodRehash h) t = { t with buckets, count } ∧
        count ≤ t.count ∧ buckets.length = t.buckets.length := by
  induction chains generalizing t with
  | nil => exact ⟨t.buckets, t.count, rfl, le_rfl, rfl⟩
  | cons q chains ih =>
    obtain ⟨b, c, he, hc, hb⟩ := methodRehash_frame h t q
    rw [List.foldl_cons, he]
    obtain ⟨b', c', he', hc', hb'⟩ := ih { t with buckets := b, count := c }
    exact ⟨b', c', he', hc'.trans hc, hb'.trans hb⟩

theorem moveToSize_frame {E} (h : KeyHash E) (t : Table K D) (size) :
    (t.moveToSize h size).count ≤ t.count ∧
      (t.moveToSize h size).shrinkSize = computeShrinkSize t.rehashSize size ∧
      (t.moveToSize h size).rehashAfterGc = t.rehashAfterGc ∧
      (t.moveToSize h size).needsRehash = false := by
  obtain ⟨b, c, he, hc, -⟩ := foldl_methodRehash_frame h t.buckets
    { { t with growSize := size }.resetTable with needsRehash := false }
  rw [moveToSize, he]
  exact ⟨hc, rfl, rfl, rfl⟩

/-- `maybe-shrink-table!`, with the calls of `new-size!` unrolled: it is called
again after each of them, and stops when no broken entry was dropped. -/
def maybeShrinkTable {E : KeyEquiv K} (h : KeyHash E) (t : Table K D) : Table K D :=
  if t.count < t.shrinkSize ∧ t.initialSizeInEffect = false then
    maybeShrinkTable h (t.moveToSize h (t.shrinkLoop t.growSize))
  else t
termination_by if t.count < t.shrinkSize then t.count + 1 else 0
decreasing_by
  obtain ⟨hc, hs, -⟩ := moveToSize_frame h t (t.shrinkLoop t.growSize)
  rename_i hlt
  rw [if_pos hlt.1]
  split
  · rename_i hlt'
    rw [hs] at hlt'
    rcases shrinkLoop_spec t t.growSize with hm | hm
    · rw [hm] at hlt'
      simp [computeShrinkSize] at hlt'
      omega
    · omega
  · omega

def newSize {E : KeyEquiv K} (h : KeyHash E) (t : Table K D) (size : Int) : Table K D :=
  (t.moveToSize h size).maybeShrinkTable h

/-- The loop of `maybe-grow-table!`. -/
def growLoop (t : Table K D) (size : Int) : Int :=
  if t.count > size then growLoop t (incrementSize t.rehashSize size) else size
termination_by (t.count - size).toNat
decreasing_by have := lt_incrementSize t.rehashSize size; omega

def maybeGrowTable {E : KeyEquiv K} (h : KeyHash E) (t : Table K D) : Table K D :=
  if t.count > t.growSize then
    { t.newSize h (t.growLoop t.growSize) with initialSizeInEffect := false }
  else t

/-! ## Address hashing -/

/-- `extract-table-entries!`: the chains joined, and a table with none. -/
def extractTableEntries (t : Table K D) : List (Entry K D) × Table K D :=
  (t.buckets.foldl (fun entries p => p ++ entries) [],
    { t with buckets := t.buckets.map fun _ => [] })

def rehashTable {E : KeyEquiv K} (h : KeyHash E) (t : Table K D) : Table K D :=
  let (entries, t) := t.extractTableEntries
  (methodRehash h { t with needsRehash := false } entries).maybeShrinkTable h

def computeNonAddressHash {E : KeyEquiv K} (h : KeyHash E) (t : Table K D) (key : K) : Nat :=
  h.hash key t.buckets.length

/-- `compute-address-hash`. A rehash clears the flag, so the loop of the source
looks at it at most twice. -/
def computeAddressHash {E : KeyEquiv K} (h : KeyHash E) (t : Table K D) (key : K) :
    Table K D × Nat :=
  if t.needsRehash then
    let t := t.rehashTable h
    (t, h.hash key t.buckets.length)
  else (t, h.hash key t.buckets.length)

/-- The `compute-hash!` argument of the methods. -/
def computeHash {E : KeyEquiv K} (h : KeyHash E) (t : Table K D) (key : K) : Table K D × Nat :=
  if t.rehashAfterGc then t.computeAddressHash h key else (t, t.computeNonAddressHash h key)

/-! ## Methods -/

/-- The scan of `method:get`. -/
def getLoop (E : KeyEquiv K) (key : K) : List (Entry K D) → Option D
  | [] => none
  | e :: p => if e.valid && E.eq e.key key then some e.datum else getLoop E key p

/-- `method:get`; `none` is the call of `fail`. -/
def methodGet {E : KeyEquiv K} (h : KeyHash E) (t : Table K D) (key : K) : Table K D × Option D :=
  let (t, hash) := t.computeHash h key
  (t, getLoop E key (t.buckets.getD hash []))

/-- The scan of `method:put!`: the new chain and whether an entry was added at
its end. -/
def putLoop (E : KeyEquiv K) (key : K) (datum : D) : List (Entry K D) → List (Entry K D) × Bool
  | [] => ([⟨key, datum, true⟩], true)
  | e :: p =>
    if e.valid && E.eq e.key key then ({ e with datum } :: p, false)
    else
      let (p, added) := putLoop E key datum p
      (e :: p, added)

def methodPut {E : KeyEquiv K} (h : KeyHash E) (t : Table K D) (key : K) (datum : D) :
    Table K D :=
  let (t, hash) := t.computeHash h key
  let (chain, added) := putLoop E key datum (t.buckets.getD hash [])
  let t := { t with buckets := t.buckets.set hash chain }
  if added then { t with count := t.count + 1 }.maybeGrowTable h else t

/-- The scan of `method:remove!`: the chain without the entry, if there is one. -/
def removeLoop (E : KeyEquiv K) (key : K) : List (Entry K D) → Option (List (Entry K D))
  | [] => none
  | e :: p =>
    if e.valid && E.eq e.key key then some p else (removeLoop E key p).map (e :: ·)

def methodRemove {E : KeyEquiv K} (h : KeyHash E) (t : Table K D) (key : K) : Table K D × Bool :=
  let (t, hash) := t.computeHash h key
  match removeLoop E key (t.buckets.getD hash []) with
  | some chain =>
    ({ t with buckets := t.buckets.set hash chain, count := t.count - 1 }.maybeShrinkTable h, true)
  | none => (t, false)

/-- One chain of `method:map!`: the chain, and how many entries it drops. -/
def mapLoop (procedure : K → D → D) : List (Entry K D) → List (Entry K D) × Nat
  | [] => ([], 0)
  | e :: p =>
    let (p, dropped) := mapLoop procedure p
    if e.valid then ({ e with datum := procedure e.key e.datum } :: p, dropped)
    else (p, dropped + 1)

/-- One chain of `method:prune!`. -/
def pruneLoop (predicate : K → D → Bool) : List (Entry K D) → List (Entry K D) × Nat
  | [] => ([], 0)
  | e :: p =>
    let (p, dropped) := pruneLoop predicate p
    if e.valid && !predicate e.key e.datum then (e :: p, dropped) else (p, dropped + 1)

/-- The loop of `method:map!` and `method:prune!` over the buckets. -/
def perBucket (loop : List (Entry K D) → List (Entry K D) × Nat) (t : Table K D) : Table K D :=
  { t with
    buckets := t.buckets.map fun chain => (loop chain).1
    count := t.count - (t.buckets.map fun chain => (loop chain).2).sum }

def methodMap (procedure : K → D → D) (t : Table K D) : Table K D :=
  t.perBucket (mapLoop procedure)

def methodPrune (predicate : K → D → Bool) (t : Table K D) : Table K D :=
  t.perBucket (pruneLoop predicate)

def methodFold {A : Type} (kons : K → D → A → A) (knil : A) (t : Table K D) : A :=
  t.buckets.foldl
    (fun acc chain =>
      chain.foldl (fun acc e => if e.valid then kons e.key e.datum acc else acc) acc)
    knil

/-! ## Table operations -/

def makeHashTable (rehashAfterGc : Bool) (initialSize : Option Nat) : Table K D :=
  let t : Table K D :=
    ⟨rehashAfterGc, defaultRehashThreshold, defaultRehashSize, 0, minimumSize, 0, [], 2, false,
      false⟩
  let t :=
    match initialSize with
    | some size =>
      if (size : Int) > minimumSize then { t with growSize := size, initialSizeInEffect := true }
      else t
    | none => t
  t.resetTable

/-- `mark-address-hash-tables!`, which a collection runs. -/
def markAddressHashTable (t : Table K D) : Table K D :=
  if t.rehashAfterGc then { t with needsRehash := true } else t

/-- The `fail` and `succeed` arguments of `hash-table-ref`, which may be
omitted, applied to what the scan found. -/
def refValue (key : K) (fail : Option D) (succeed : Option (D → D)) :
    Option D → Except (BadRange K) D
  | some datum =>
    match succeed with
    | some succeed => .ok (succeed datum)
    | none => .ok datum
  | none =>
    match fail with
    | some failed => .ok failed
    | none => .error (.hashTableRef key)

def hashTableRef {E : KeyEquiv K} (h : KeyHash E) (t : Table K D) (key : K) (fail : Option D)
    (succeed : Option (D → D)) : Table K D × Except (BadRange K) D :=
  let (t, datum) := t.methodGet h key
  (t, refValue key fail succeed datum)

/-- `hash-table-set!` on a property list; `rest` is a key without a datum at
its end. -/
def hashTableSet {E : KeyEquiv K} (h : KeyHash E) (t : Table K D) :
    List (K × D) → Option K → Table K D × Except (BadRange K) Unit
  | [], none => (t, .ok ())
  | [], some key => (t, .error (.hashTableSet [key]))
  | (key, datum) :: plist, rest => hashTableSet h (t.methodPut h key datum) plist rest

/-- `hash-table-delete!`: how many of the keys were there. -/
def hashTableDelete {E : KeyEquiv K} (h : KeyHash E) (t : Table K D) (count : Nat) :
    List K → Table K D × Nat
  | [] => (t, count)
  | key :: keys =>
    let (t, removed) := t.methodRemove h key
    hashTableDelete h t (if removed then count + 1 else count) keys

def hashTableClear (t : Table K D) : Table K D :=
  let t := if t.initialSizeInEffect then t else { t with growSize := minimumSize }
  { t with count := 0 }.resetTable

def hashTableMap {E : KeyEquiv K} (h : KeyHash E) (procedure : K → D → D) (t : Table K D) :
    Table K D :=
  (t.methodMap procedure).maybeShrinkTable h

def hashTablePrune {E : KeyEquiv K} (h : KeyHash E) (predicate : K → D → Bool) (t : Table K D) :
    Table K D :=
  (t.methodPrune predicate).maybeShrinkTable h

end Table
end

end MitScheme.Runtime.HashTable
