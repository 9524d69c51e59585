import Mathlib.Logic.Relation
import MitScheme.Microcode.GcLoop

/-! # The garbage collector: heaps

What a heap is before a collection: objects that do not overlap, of which each is a row of
words that the scan reads one by one, but for the contents of non-marked vectors. -/

namespace MitScheme.Microcode.GcLoop

inductive Shape
  | tuple (nWords : Nat)
  | vector
  | weakPair
  | ephemeron
  deriving DecidableEq

/-- The shape of the object that a word points to, if the scan takes it for a pointer. -/
def pointerShape (w : Object) : Option Shape :=
  match gctEntry w.type with
  | .cell => some (.tuple 1)
  | .pair => some (.tuple 2)
  | .triple => some (.tuple 3)
  | .quadruple => some (.tuple 4)
  | .weakPair => some .weakPair
  | .ephemeron => some .ephemeron
  | .alignedVector | .unalignedVector => some .vector
  | .referenceTrap => if w.datum ≤ trapMaxImmediate then none else some (.tuple 2)
  | .nonPointer | .nmv | .ccEntry | .ccReturn | .linkageSection | .manifestClosure
  | .brokenHeart | .undefined => none

def scansWord (w : Object) : Bool :=
  match gctEntry w.type with
  | .nonPointer | .cell | .pair | .triple | .quadruple | .weakPair | .ephemeron
  | .alignedVector | .unalignedVector | .referenceTrap => true
  | .nmv | .ccEntry | .ccReturn | .linkageSection | .manifestClosure | .brokenHeart
  | .undefined => false

/-- The memory before a collection, and the objects of fromspace by their first word. -/
structure Layout where
  memory : Nat → Object
  shape : Nat → Option Shape

variable {c : Config}

namespace Layout
variable (h : Layout)

def size (b : Nat) : Option Nat :=
  (h.shape b).map fun
    | .tuple n => n
    | .vector => 1 + (h.memory b).datum
    | .weakPair => 2
    | .ephemeron => ephemeronSize

/-- The word `w` points to the object at `d` of fromspace. -/
def Refers (c : Config) (w : Object) (d : Nat) : Prop :=
  (pointerShape w).isSome ∧ w.datum = d ∧ c.inFromspace d

def WeakCar (c : Config) (a : Nat) : Prop :=
  h.shape a = some .weakPair ∧ (pointerShape (h.memory a)).isSome ∧
    c.inFromspace (h.memory a).datum

instance (c : Config) (a : Nat) : Decidable (h.WeakCar c a) :=
  inferInstanceAs (Decidable (_ ∧ _ ∧ _))

def view (c : Config) (a : Nat) : Object :=
  if h.WeakCar c a then ⟨.false, (h.memory a).datum⟩ else h.memory a

/-- A word of the heap: the scan knows it, and it points to an object of its shape. -/
structure WordOk (c : Config) (w : Object) : Prop where
  scans : scansWord w = true
  points : ∀ shape, pointerShape w = some shape → c.inFromspace w.datum →
    h.shape w.datum = some shape

/-- The `n` words from `a` on, as the scan reads them. -/
inductive Words (c : Config) : Nat → Nat → Prop
  | nil (a : Nat) : Words c a 0
  | word {a n : Nat} : h.WordOk c (h.view c a) → Words c (a + 1) n → Words c a (n + 1)
  | skip {a n m d : Nat} : h.view c a = ⟨.manifestNmVector, d⟩ → m = 1 + d + n →
    Words c (a + 1 + d) n → Words c a m

/-- The word at the last address is scanned, in the `n` words from `a` on. -/
inductive Field (c : Config) : Nat → Nat → Nat → Prop
  | here {a n : Nat} : scansWord (h.view c a) = true → Field c a (n + 1) a
  | word {a n x : Nat} : scansWord (h.view c a) = true → Field c (a + 1) n x →
    Field c a (n + 1) x
  | skip {a n m d x : Nat} : h.view c a = ⟨.manifestNmVector, d⟩ → m = 1 + d + n →
    Field c (a + 1 + d) n x → Field c a m x

/-- The word at `a` is a word of an object that the scan reads. -/
def Visited (c : Config) (a : Nat) : Prop := ∃ b n, h.size b = some n ∧ h.Field c b n a

end Layout

structure Heap (c : Config) extends Layout where
  low : trapMaxImmediate < c.fromspaceStart
  inside : ∀ b n, toLayout.size b = some n →
    0 < n ∧ c.fromspaceStart ≤ b ∧ b + n ≤ c.fromspaceEnd
  disjoint : ∀ b n b' n', toLayout.size b = some n → toLayout.size b' = some n' → b < b' →
    b + n ≤ b'
  words : ∀ b n, toLayout.size b = some n → toLayout.Words c b n
  tuple : ∀ b n, shape b = some (.tuple n) → ∀ j < n, toLayout.WordOk c (memory (b + j))
  header : ∀ b, shape b = some .vector →
    (memory b).type = .false ∨ (memory b).type = .manifestNmVector
  weakCar : ∀ b, shape b = some .weakPair → toLayout.WordOk c (memory b)
  ephemeron : ∀ b, shape b = some .ephemeron →
    ∀ j < ephemeronSize, toLayout.WordOk c (memory (b + j))
  manifest : ∀ b, shape b = some .ephemeron → memory b = markedEphemeronManifest

/-- A region of words outside fromspace, from which the collection starts. -/
structure Roots (h : Heap c) where
  start : Nat
  length : Nat
  outside : start + length ≤ c.fromspaceStart ∨ c.fromspaceEnd ≤ start
  words : h.toLayout.Words c start length

section
variable {h : Heap c} (roots : Roots h)

/-- A scanned word of the object at `b` points to `d`. -/
def Heap.Points (h : Heap c) (b d : Nat) : Prop :=
  ∃ n a, h.size b = some n ∧ h.Field c b n a ∧ Layout.Refers c (h.view c a) d

/-- A word of the roots points to `d`. -/
def Roots.Points (d : Nat) : Prop :=
  ∃ a, h.Field c roots.start roots.length a ∧ Layout.Refers c (h.view c a) d

/-- The object at `b` can be reached from the roots. -/
def Roots.Reaches (b : Nat) : Prop := ∃ r, roots.Points r ∧ Relation.ReflTransGen h.Points r b

end

end MitScheme.Microcode.GcLoop
