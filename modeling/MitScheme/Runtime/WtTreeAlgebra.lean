import MitScheme.Runtime.WtTreeValid

/-! # Weight-balanced trees: set algebra

The procedures on two trees pick each pair from the pairs that the trees have under its key.
`node/subset?` compares the trees without building a third one, and `node/index` and
`node/rank` count along the sorted keys. -/

namespace MitScheme.Runtime.WtTree
open Lib.SortedMap (KeyOrder Sorted Around sorted_middle find_left find_below find_congr
  find_eq_some find_filter_lt find_filter_gt)
open WtTree.Tree (empty node)

variable {α β : Type} {k x : α} {v : β} {l r t t1 t2 : Tree α β} {w : Nat} {O : KeyOrder α}

/-- The loop of `node/index`; without a node it fails. -/
def indexLoop : Tree α β → Int → Option (α × β)
  | empty, _ => none
  | node k v l r _, index =>
    if index < l.size then indexLoop l index
    else if index > l.size then indexLoop r (index - (1 + l.size))
    else some (k, v)

/-- `node/index`; `none` is `error:bad-range-argument`. -/
def index (node : Tree α β) (index : Int) : Option (α × β) :=
  if 0 ≤ index ∧ index < node.size then indexLoop node index else none

/-- `node/rank`. -/
def rank (O : KeyOrder α) (k : α) : Tree α β → Nat → Option Nat
  | empty, _ => none
  | node key _ l r _, n =>
    if O.lt k key then rank O k l n
    else if O.lt key k then rank O k r (1 + n + l.size)
    else some (n + l.size)

/-- `and` of a test that may stop. -/
def andThen (p : Except Fault Bool) (q : Except Fault Bool) : Except Fault Bool := do
  if ← p then q else return false

/-- `node/subset?`. -/
def subset (O : KeyOrder α) : Tree α β → Tree α β → Except Fault Bool
  | empty, _ => .ok true
  | node k _ l r w, tree2 =>
    if w ≤ tree2.size then
      match tree2 with
      | empty => .error .wrongType
      | node k2 v2 l2 r2 w2 =>
        if O.lt k k2 then
          andThen (subset O l l2) (andThen (.ok (find O k (node k2 v2 l2 r2 w2)).isSome)
            (subset O r (node k2 v2 l2 r2 w2)))
        else if O.lt k2 k then
          andThen (subset O r r2) (andThen (.ok (find O k (node k2 v2 l2 r2 w2)).isSome)
            (subset O l (node k2 v2 l2 r2 w2)))
        else andThen (subset O l l2) (subset O r r2)
    else .ok false

/-! ## Counting -/

theorem indexLoop_eq (ht : t.Weighted) (i : Nat) : indexLoop t i = t.toList[i]? := by
  induction t generalizing i with
  | empty => rfl
  | node k v l r w ihl ihr =>
    obtain ⟨-, hl, hr⟩ := ht
    have hsize : l.size = l.toList.length := hl.size_eq.trans l.count_eq
    rw [indexLoop, Tree.toList, hsize]
    rcases Nat.lt_trichotomy i l.toList.length with hlt | heq | hgt
    · rw [if_pos (by omega), ihl hl, List.getElem?_append_left hlt]
    · rw [if_neg (by omega), if_neg (by omega), List.getElem?_append_right (by omega), heq,
        Nat.sub_self, List.getElem?_cons_zero]
    · obtain ⟨d, rfl⟩ := Nat.exists_eq_add_of_lt hgt
      rw [if_neg (by omega), if_pos (by omega), List.getElem?_append_right (by omega),
        show l.toList.length + d + 1 - l.toList.length = d + 1 by omega, List.getElem?_cons_succ,
        ← ihr hr]
      congr 1
      omega

theorem rank_eq (ht : t.Weighted) (hs : Sorted O t.toList) {i p} (hi : t.toList[i]? = some p)
    (n : Nat) : rank O p.1 t n = some (n + i) := by
  induction t generalizing i n with
  | empty => cases hi
  | node k v l r w ihl ihr =>
    obtain ⟨-, hl, hr⟩ := ht
    obtain ⟨hsl, hsr, haround⟩ := sorted_middle.mp hs
    have hsize : l.size = l.toList.length := hl.size_eq.trans l.count_eq
    rw [Tree.toList] at hi
    rw [rank, hsize]
    rcases Nat.lt_trichotomy i l.toList.length with hlt | heq | hgt
    · rw [List.getElem?_append_left hlt] at hi
      rw [if_pos (haround.below p (List.mem_of_getElem? hi)), ihl hl hsl hi]
    · rw [List.getElem?_append_right (by omega), heq, Nat.sub_self, List.getElem?_cons_zero,
        Option.some.injEq] at hi
      subst hi
      rw [if_neg (by rw [O.irrefl]; exact Bool.false_ne_true),
        if_neg (by rw [O.irrefl]; exact Bool.false_ne_true), heq]
    · obtain ⟨d, rfl⟩ := Nat.exists_eq_add_of_lt hgt
      rw [List.getElem?_append_right (by omega),
        show l.toList.length + d + 1 - l.toList.length = d + 1 by omega,
        List.getElem?_cons_succ] at hi
      have hlt := haround.above p (List.mem_of_getElem? hi)
      rw [if_neg (by rw [O.not_lt_of_lt hlt]; exact Bool.false_ne_true), if_pos hlt,
        ihr hr hsr hi]
      exact congrArg some (by omega)

/-! ## Subsets -/

def KeysIn (O : KeyOrder α) (a b : List (α × β)) : Prop :=
  ∀ p ∈ a, (Lib.SortedMap.find O b p.1).isSome = true

theorem KeysIn.length_le {a b : List (α × β)} (h : KeysIn O a b) (ha : Sorted O a)
    (hb : Sorted O b) : a.length ≤ b.length := by
  induction a generalizing b with
  | nil => exact Nat.zero_le _
  | cons p a ih =>
    obtain ⟨hp, ha⟩ := List.pairwise_cons.mp ha
    obtain ⟨q, hq⟩ := Option.isSome_iff_exists.mp (h p List.mem_cons_self)
    obtain ⟨hmem, heq⟩ := find_eq_some hq
    obtain ⟨b1, b2, rfl⟩ := List.append_of_mem hmem
    obtain ⟨-, hb2, haround⟩ := sorted_middle.mp hb
    -- the other keys are above the one that is found
    have hrest : KeysIn O a b2 := by
      intro p' hp'
      have hlt : O.lt q.1 p'.1 = true := O.lt_of_eq_of_lt (O.eq_symm heq) (hp p' hp')
      have hfind := h p' (List.mem_cons_of_mem _ hp')
      rwa [List.append_cons, find_below fun s hs => ?_] at hfind
      rcases List.mem_append.mp hs with hs | hs
      · exact O.trans (haround.below s hs) hlt
      · rw [List.mem_singleton.mp hs]
        exact hlt
    have := ih hrest ha hb2
    rw [List.length_cons, List.length_append, List.length_cons]
    omega

theorem keysIn_append {a b c : List (α × β)} : KeysIn O (a ++ b) c ↔ KeysIn O a c ∧ KeysIn O b c :=
  List.forall_mem_append

theorem keysIn_cons {a c} {p : α × β} : KeysIn O (p :: a) c ↔
    (Lib.SortedMap.find O c p.1).isSome = true ∧ KeysIn O a c :=
  List.forall_mem_cons

theorem keysIn_left {a} (hs : Sorted O (node k v l r w).toList) (ha : ∀ p ∈ a, O.lt p.1 k = true) :
    KeysIn O a (node k v l r w).toList ↔ KeysIn O a l.toList := by
  refine forall₂_congr fun p hp => ?_
  rw [Tree.toList, find_left (Sorted.around_lt hs (ha p hp))]

theorem keysIn_right {a} (hs : Sorted O (node k v l r w).toList) (ha : ∀ p ∈ a, O.lt k p.1 = true) :
    KeysIn O a (node k v l r w).toList ↔ KeysIn O a r.toList := by
  refine forall₂_congr fun p hp => ?_
  rw [Tree.toList, List.append_cons, find_below (Sorted.around_gt hs (ha p hp))]

def Tests (x : Except Fault Bool) (p : Prop) : Prop := ∃ b, x = .ok b ∧ (b = true ↔ p)

theorem Tests.andThen {x y} {p q : Prop} (hx : Tests x p) (hy : Tests y q) :
    Tests (andThen x y) (p ∧ q) := by
  obtain ⟨b, rfl, hb⟩ := hx
  obtain ⟨c, rfl, hc⟩ := hy
  cases b with
  | true => exact ⟨c, rfl, by rw [hc, ← hb, eq_self, true_and]⟩
  | false => exact ⟨false, rfl, by rw [← hb]; simp⟩

theorem Tests.congr {x} {p q : Prop} (hx : Tests x p) (h : p ↔ q) : Tests x q := by
  obtain ⟨b, hx, hb⟩ := hx
  exact ⟨b, hx, hb.trans h⟩

theorem subset_spec (h1 : t1.Weighted) (hs1 : Sorted O t1.toList) (h2 : t2.Weighted)
    (hs2 : Sorted O t2.toList) : Tests (subset O t1 t2) (KeysIn O t1.toList t2.toList) := by
  induction t1 generalizing t2 with
  | empty => exact ⟨true, rfl, by simp [KeysIn, Tree.toList]⟩
  | node k v l r w ihl ihr =>
    have hlen1 : w = (node k v l r w).toList.length := h1.size_eq.trans (Tree.count_eq _)
    have hlen2 : t2.size = t2.toList.length := h2.size_eq.trans (Tree.count_eq _)
    obtain ⟨hw, hl, hr⟩ := h1
    obtain ⟨hsl, hsr, haround⟩ := sorted_middle.mp hs1
    unfold subset
    by_cases hle : w ≤ t2.size
    · rw [if_pos hle]
      cases t2 with
      | empty =>
        rw [hw] at hle
        simp [Tree.size] at hle
      | node k2 v2 l2 r2 w2 =>
        dsimp only
        obtain ⟨-, hl2, hr2⟩ := id h2
        obtain ⟨hsl2, hsr2, -⟩ := sorted_middle.mp hs2
        have hfind : Tests (.ok (find O k (node k2 v2 l2 r2 w2)).isSome)
            ((Lib.SortedMap.find O (node k2 v2 l2 r2 w2).toList k).isSome = true) :=
          ⟨_, rfl, by rw [find_spec hs2]⟩
        have hparts : KeysIn O (node k v l r w).toList (node k2 v2 l2 r2 w2).toList ↔
            KeysIn O l.toList (node k2 v2 l2 r2 w2).toList ∧
              (Lib.SortedMap.find O (node k2 v2 l2 r2 w2).toList k).isSome = true ∧
                KeysIn O r.toList (node k2 v2 l2 r2 w2).toList := by
          rw [Tree.toList, keysIn_append, keysIn_cons]
        cases hlt : O.lt k k2 with
        | true =>
          have hbelow := keysIn_left hs2 fun p hp => O.trans (haround.below p hp) hlt
          rw [hparts, hbelow]
          exact (ihl hl hsl hl2 hsl2).andThen (hfind.andThen (ihr hr hsr h2 hs2))
        | false =>
          cases hgt : O.lt k2 k with
          | true =>
            have habove := keysIn_right hs2 fun p hp => O.trans hgt (haround.above p hp)
            refine ((ihr hr hsr hr2 hsr2).andThen (hfind.andThen (ihl hl hsl h2 hs2))).congr ?_
            rw [hparts, habove]
            exact ⟨fun h => ⟨h.2.2, h.2.1, h.1⟩, fun h => ⟨h.2.2, h.2.1, h.1⟩⟩
          | false =>
            have heq : O.eq k k2 = true := O.eq_iff.mpr ⟨hlt, hgt⟩
            have hbelow := keysIn_left hs2 fun p hp =>
              O.lt_of_lt_of_eq (haround.below p hp) heq
            have habove := keysIn_right hs2 fun p hp =>
              O.lt_of_eq_of_lt (O.eq_symm heq) (haround.above p hp)
            have hkey : (Lib.SortedMap.find O (node k2 v2 l2 r2 w2).toList k).isSome = true := by
              rw [Tree.toList, (Sorted.around hs2 heq).find_some heq]
              rfl
            refine ((ihl hl hsl hl2 hsl2).andThen (ihr hr hsr hr2 hsr2)).congr ?_
            rw [hparts, hbelow, habove, and_iff_right hkey]
    · -- a tree with more keys is not a subset
      rw [if_neg hle]
      refine ⟨false, rfl, iff_of_false Bool.false_ne_true fun h => ?_⟩
      have := h.length_le hs1 hs2
      omega

/-! ## Trees -/

structure BalancedTree (α β : Type) (O : KeyOrder α) where
  root : Tree α β
  shape : Shape root
  sorted : Sorted O root.toList

namespace BalancedTree

def pair (t : BalancedTree α β O) (k : α) : Option (α × β) :=
  Lib.SortedMap.find O t.root.toList k

theorem of_gives {f : Join α β → Except Fault (Tree α β)} {P : Tree α β → Prop}
    (h : Gives checkedJoin f fun t => Sorted O t.toList ∧ P t) :
    ∃ t : BalancedTree α β O, f tJoin = .ok t.root ∧ P t.root := by
  obtain ⟨t, -, hf, ht, hs, hP⟩ := h
  exact ⟨⟨t, ht, hs⟩, hf, hP⟩

theorem of_combined {t1 t2 : BalancedTree α β O} {f : Join α β → Except Fault (Tree α β)}
    {pick : Option (α × β) → Option (α × β) → Option (α × β)}
    (h : Gives checkedJoin f fun t =>
      Combined O t1.root t2.root t ∧ Picks O pick t1.root t2.root t) :
    ∃ t : BalancedTree α β O, f tJoin = .ok t.root ∧
      ∀ k, t.pair k = pick (t1.pair k) (t2.pair k) :=
  of_gives (P := Picks O pick t1.root t2.root) (h.mono fun _ _ ht => ⟨ht.1.1, ht.2⟩)

end BalancedTree

/-- **Set algebra of weight-balanced trees**: unions, intersections, differences and splits have
the keys and the data that they should, a subset is told from any other set, and rank undoes
index. -/
theorem wt_tree_set_algebra (t1 t2 : BalancedTree α β O) (merge : α → β → β → β) (x : α) :
    (∃ t : BalancedTree α β O, union O tJoin t1.root t2.root = .ok t.root ∧
      ∀ k, t.pair k = (t2.pair k).or (t1.pair k)) ∧
    (∃ t : BalancedTree α β O, unionMerge O tJoin merge t1.root t2.root = .ok t.root ∧
      ∀ k, t.pair k = pickMerge merge (t1.pair k) (t2.pair k)) ∧
    (∃ t : BalancedTree α β O, intersection O tJoin t1.root t2.root = .ok t.root ∧
      ∀ k, t.pair k = if (t1.pair k).isSome then t2.pair k else none) ∧
    (∃ t : BalancedTree α β O, difference O tJoin t1.root t2.root = .ok t.root ∧
      ∀ k, t.pair k = if (t2.pair k).isSome then none else t1.pair k) ∧
    (∃ t : BalancedTree α β O, splitLt O tJoin x t1.root = .ok t.root ∧
      t.root.toList = t1.root.toList.filter fun p => O.lt p.1 x) ∧
    (∃ t : BalancedTree α β O, splitGt O tJoin x t1.root = .ok t.root ∧
      t.root.toList = t1.root.toList.filter fun p => O.lt x p.1) ∧
    (∃ b, subset O t1.root t2.root = .ok b ∧
      (b = true ↔ ∀ k, (t1.pair k).isSome = true → (t2.pair k).isSome = true)) ∧
    ∀ i < t1.root.size, ∃ p, index t1.root i = some p ∧ rank O p.1 t1.root 0 = some i := by
  have hj : Agree (checkedJoin : Join α β) := agree_checkedJoin
  refine ⟨?_, ?_, ?_, ?_, ?_, ?_, ?_, ?_⟩
  · exact BalancedTree.of_combined (union_spec hj _ t1.shape t1.sorted t2.shape t2.sorted)
  · exact BalancedTree.of_combined
      (unionMerge_spec hj merge _ t1.shape t1.sorted t2.shape t2.sorted)
  · exact BalancedTree.of_combined (intersection_spec hj _ t1.shape t1.sorted t2.shape t2.sorted)
  · exact BalancedTree.of_combined (difference_spec hj _ t1.shape t1.sorted t2.shape t2.sorted)
  · exact BalancedTree.of_gives ((splitLt_spec hj t1.shape t1.sorted x).mono fun _ _ ht =>
      ⟨ht ▸ t1.sorted.filter _, ht⟩)
  · exact BalancedTree.of_gives ((splitGt_spec hj t1.shape t1.sorted x).mono fun _ _ ht =>
      ⟨ht ▸ t1.sorted.filter _, ht⟩)
  · refine (subset_spec t1.shape.weighted t1.sorted t2.shape.weighted t2.sorted).congr ?_
    constructor
    · intro h k hk
      obtain ⟨p, hp⟩ := Option.isSome_iff_exists.mp hk
      obtain ⟨hmem, heq⟩ := find_eq_some hp
      rw [BalancedTree.pair, find_congr heq]
      exact h p hmem
    · intro h p hp
      exact h p.1 (Option.isSome_iff_exists.mpr ⟨p, t1.sorted.find_mem hp⟩)
  · intro i hi
    have hlen := hi
    rw [t1.shape.size_eq] at hlen
    have hget := List.getElem?_eq_getElem hlen
    refine ⟨t1.root.toList[i], ?_, ?_⟩
    · rw [index, if_pos ⟨by omega, by omega⟩, indexLoop_eq t1.shape.weighted, hget]
    · rw [rank_eq t1.shape.weighted t1.sorted hget, Nat.zero_add]

end MitScheme.Runtime.WtTree
