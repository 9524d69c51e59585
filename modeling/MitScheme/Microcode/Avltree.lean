import Mathlib.Data.Nat.Size
import MitScheme.Lib.SortedMap

/-! # The AVL trees of names

`avltree.c`. A branch that is missing is `null`; a procedure that goes through a missing branch has
no result. `malloc` always finds room. -/

namespace MitScheme.Microcode.Avltree
open Lib.SortedMap

/-- What the trees rely on `strcmp_ci` for. -/
structure NameOrder (α : Type) where
  strcmpCi : α → α → Int
  range : ∀ a b, strcmpCi a b = -1 ∨ strcmpCi a b = 0 ∨ strcmpCi a b = 1
  swap : ∀ a b, strcmpCi b a = -strcmpCi a b
  trans : ∀ {a b c}, strcmpCi a b ≤ 0 → strcmpCi b c ≤ 0 → strcmpCi a c ≤ 0

/-- `unsigned long`. -/
abbrev Value := BitVec 64

inductive TreeNode (α : Type)
  | null
  | node (height : Nat) (left : TreeNode α) (name : α) (value : Value) (rite : TreeNode α)

namespace TreeNode

variable {α : Type}

def branchHeight : TreeNode α → Nat
  | .null => 0
  | .node height _ _ _ _ => height

def updateHeight : TreeNode α → TreeNode α
  | .null => .null
  | .node _ l name value r => .node (1 + max l.branchHeight r.branchHeight) l name value r

def leafMake (name : α) (value : Value) : TreeNode α := .node 1 .null name value .null

def rotateLeft : TreeNode α → Option (TreeNode α)
  | .node h l name value (.node h' beta name' value' r) =>
    some (updateHeight (.node h' (updateHeight (.node h l name value beta)) name' value' r))
  | _ => none

def rotateRite : TreeNode α → Option (TreeNode α)
  | .node h (.node h' l name' value' beta) name value r =>
    some (updateHeight (.node h' l name' value' (updateHeight (.node h beta name value r))))
  | _ => none

def rebalanceLeft : TreeNode α → Option (TreeNode α)
  | .null => none
  | .node h l name value r =>
    if 1 + r.branchHeight ≥ l.branchHeight then some (updateHeight (.node h l name value r))
    else match l with
      | .null => none
      | .node h' ql qname qvalue qr => do
        let q := TreeNode.node h' ql qname qvalue qr
        let q ← if qr.branchHeight > ql.branchHeight then rotateLeft q else some q
        rotateRite (.node h q name value r)

def rebalanceRite : TreeNode α → Option (TreeNode α)
  | .null => none
  | .node h l name value r =>
    if 1 + l.branchHeight ≥ r.branchHeight then some (updateHeight (.node h l name value r))
    else match r with
      | .null => none
      | .node h' ql qname qvalue qr => do
        let q := TreeNode.node h' ql qname qvalue qr
        let q ← if ql.branchHeight > qr.branchHeight then rotateRite q else some q
        rotateLeft (.node h l name value q)

/-- `tree_error_message` and `tree_error_noise`. -/
abbrev TreeError (α : Type) := String × α

/-- `tree_insert`, with the error it reports. -/
def treeInsert (O : NameOrder α) :
    TreeNode α → α → Value → Option (TreeNode α × Option (TreeError α))
  | .null, name, value => some (leafMake name value, none)
  | .node h l tname tvalue r, name, value =>
    if O.strcmpCi name tname = 0 then
      some (.node h l tname tvalue r, some ("tree_insert: Duplicate entry %s.\n", name))
    else if O.strcmpCi name tname = -1 then do
      let (l, error) ← treeInsert O l name value
      return (← rebalanceLeft (.node h l tname tvalue r), error)
    else if O.strcmpCi name tname = 1 then do
      let (r, error) ← treeInsert O r name value
      return (← rebalanceRite (.node h l tname tvalue r), error)
    else some (.null, none)

/-- `tree_lookup`: the name and the value of the node. -/
def treeLookup (O : NameOrder α) : TreeNode α → α → Option (α × Value)
  | .null, _ => none
  | .node _ l tname tvalue r, name =>
    if O.strcmpCi name tname = 0 then some (tname, tvalue)
    else if O.strcmpCi name tname = -1 then treeLookup O l name
    else treeLookup O r name

/-- `tree_build`, with the static variable `bias`: the tree, and the bias afterwards. An array of
names is the function of its indices, from the pointer on. -/
def treeBuild (high : Nat) (names : Nat → α) (value : Value) (bias : Fin 2) :
    TreeNode α × Fin 2 :=
  if high > 1 then
    let middle := if high % 2 = 0 then high / 2 - bias.val else high / 2
    let bias := if high % 2 = 0 then 1 - bias else bias
    let next := middle + 1
    let (left, bias) := treeBuild middle names value bias
    let (rite, bias) := treeBuild (high - next) (fun i => names (next + i)) (value + .ofNat 64 next) bias
    (updateHeight (.node 1 left (names middle) (value + .ofNat 64 middle) rite), bias)
  else (if high = 1 then leafMake (names 0) value else .null, bias)
termination_by high
decreasing_by all_goals split <;> omega

/-- A sequence of calls of `tree_insert`. -/
def treeInsertAll (O : NameOrder α) (t : TreeNode α) (calls : List (α × Value)) :
    Option (TreeNode α) :=
  calls.foldlM (fun t call => (treeInsert O t call.1 call.2).map Prod.fst) t

/-! ## Search trees with the AVL condition -/

@[simp] def toList : TreeNode α → List (α × Value)
  | .null => []
  | .node _ l name value r => l.toList ++ (name, value) :: r.toList

@[simp] def depth : TreeNode α → Nat
  | .null => 0
  | .node _ l _ _ r => 1 + max l.depth r.depth

/-- The stored heights are the true ones, and the AVL condition holds at every node. -/
def Balanced : TreeNode α → Prop
  | .null => True
  | .node h l name value r => h = (TreeNode.node h l name value r).depth ∧ l.depth ≤ r.depth + 1 ∧
      r.depth ≤ l.depth + 1 ∧ l.Balanced ∧ r.Balanced

theorem Balanced.branchHeight {t : TreeNode α} (h : t.Balanced) : t.branchHeight = t.depth := by
  cases t with
  | null => rfl
  | node => exact h.1

theorem Balanced.update {l r : TreeNode α} {h name value} (hl : l.Balanced) (hr : r.Balanced)
    (hlr : l.depth ≤ r.depth + 1) (hrl : r.depth ≤ l.depth + 1) :
    (updateHeight (.node h l name value r)).Balanced := by
  refine ⟨?_, hlr, hrl, hl, hr⟩
  rw [hl.branchHeight, hr.branchHeight]
  rfl

variable (t : TreeNode α)

@[simp] theorem updateHeight_depth : t.updateHeight.depth = t.depth := by
  cases t <;> rfl

@[simp] theorem updateHeight_toList : t.updateHeight.toList = t.toList := by
  cases t <;> rfl

/-! ## Mirrored trees -/

@[simp] def mirror : TreeNode α → TreeNode α
  | .null => .null
  | .node h l name value r => .node h r.mirror name value l.mirror

@[simp] theorem mirror_branchHeight : t.mirror.branchHeight = t.branchHeight := by
  cases t <;> rfl

@[simp] theorem mirror_depth : t.mirror.depth = t.depth := by
  induction t with
  | null => rfl
  | node h l name value r ihl ihr => rw [mirror, depth, depth, ihl, ihr, max_comm]

@[simp] theorem mirror_toList : t.mirror.toList = t.toList.reverse := by
  induction t with
  | null => rfl
  | node h l name value r ihl ihr => simp [mirror, toList, ihl, ihr]

@[simp] theorem mirror_mirror : t.mirror.mirror = t := by
  induction t with
  | null => rfl
  | node h l name value r ihl ihr => rw [mirror, mirror, ihl, ihr]

theorem mirror_balanced {t : TreeNode α} : t.mirror.Balanced ↔ t.Balanced := by
  induction t with
  | null => exact Iff.rfl
  | node h l name value r ihl ihr =>
    simp only [mirror, Balanced, depth, mirror_depth, ihl, ihr, max_comm l.depth]
    exact ⟨fun ⟨hh, hrl, hlr, hr, hl⟩ => ⟨hh, hlr, hrl, hl, hr⟩,
      fun ⟨hh, hlr, hrl, hl, hr⟩ => ⟨hh, hrl, hlr, hr, hl⟩⟩

theorem mirror_updateHeight : t.updateHeight.mirror = t.mirror.updateHeight := by
  cases t <;> simp [mirror, updateHeight, max_comm]

theorem mirror_rotateLeft : t.mirror.rotateLeft = t.rotateRite.map mirror := by
  unfold rotateRite
  split
  · simp [mirror, rotateLeft, mirror_updateHeight]
  · next hno =>
    cases t with
    | null => rfl
    | node h l name value r =>
      cases l with
      | null => rfl
      | node => exact absurd rfl (hno _ _ _ _ _ _ _ _ _)

theorem mirror_rotateRite : t.mirror.rotateRite = t.rotateLeft.map mirror := by
  unfold rotateLeft
  split
  · simp [mirror, rotateRite, mirror_updateHeight]
  · next hno =>
    cases t with
    | null => rfl
    | node h l name value r =>
      cases r with
      | null => cases l <;> rfl
      | node => exact absurd rfl (hno _ _ _ _ _ _ _ _ _)

theorem mirror_rebalanceLeft : t.mirror.rebalanceLeft = t.rebalanceRite.map mirror := by
  cases t with
  | null => rfl
  | node h l name value r =>
    simp only [mirror, rebalanceLeft, rebalanceRite, mirror_branchHeight]
    split
    · simp [mirror_updateHeight, mirror]
    · cases r with
      | null => rfl
      | node h' ql qname qvalue qr =>
        have hq := mirror_rotateLeft (.node h' ql qname qvalue qr)
        simp only [mirror, mirror_branchHeight] at hq ⊢
        split
        · rw [hq]
          cases rotateRite (.node h' ql qname qvalue qr) with
          | none => rfl
          | some q => exact mirror_rotateRite (.node h l name value q)
        · exact mirror_rotateRite (.node h l name value (.node h' ql qname qvalue qr))

/-! ## Rebalancing -/

variable {l r : TreeNode α}

/-- What a step of rebalancing keeps, and the height that comes out. -/
structure Rebalances (t : TreeNode α) (high low : Nat) (t' : TreeNode α) : Prop where
  balanced : t'.Balanced
  toList : t'.toList = t.toList
  depth : t'.depth = 1 + max high low ∨ high = low + 2 ∧ t'.depth = high

theorem rebalanceLeft_spec (h : Nat) (name value) (hl : l.Balanced) (hr : r.Balanced)
    (hlr : l.depth ≤ r.depth + 2) (hrl : r.depth ≤ l.depth + 1) :
    ∃ t', rebalanceLeft (.node h l name value r) = some t' ∧
      Rebalances (.node h l name value r) l.depth r.depth t' := by
  unfold rebalanceLeft
  dsimp only
  rw [hl.branchHeight, hr.branchHeight]
  by_cases hle : 1 + r.depth ≥ l.depth
  · rw [if_pos hle]
    refine ⟨_, rfl, hl.update hr (by omega) hrl, by simp, .inl ?_⟩
    rw [updateHeight_depth, TreeNode.depth]
  rw [if_neg hle]
  cases l with
  | null => exact absurd (Nat.zero_le _) hle
  | node h' ql qname qvalue qr =>
    obtain ⟨-, hqlr, hqrl, hql, hqr⟩ := hl
    simp only [TreeNode.depth] at hlr hrl hle ⊢
    rw [hql.branchHeight, hqr.branchHeight]
    by_cases hdouble : qr.depth > ql.depth
    · -- the inner grandchild is the higher one: it comes to the top
      rw [if_pos hdouble]
      cases qr with
      | null => exact absurd hdouble (Nat.not_lt_zero _)
      | node h'' bl bname bvalue br =>
        obtain ⟨-, hblr, hbrl, hbl, hbr⟩ := hqr
        simp only [TreeNode.depth] at hqlr hqrl hdouble hlr hrl hle ⊢
        refine ⟨_, rfl, (hql.update hbl (by omega) (by omega)).update
          (hbr.update hr (by omega) (by omega)) ?_ ?_, by simp [TreeNode.toList], ?_⟩
        all_goals
          simp only [updateHeight_depth, TreeNode.depth]
          omega
    · rw [if_neg hdouble]
      refine ⟨_, rfl, hql.update (hqr.update hr (by omega) (by omega)) ?_ ?_,
        by simp [TreeNode.toList], ?_⟩
      all_goals
        simp only [updateHeight_depth, TreeNode.depth]
        omega

theorem rebalanceLeft_self {h name value} (ht : (TreeNode.node h l name value r).Balanced) :
    rebalanceLeft (.node h l name value r) = some (.node h l name value r) := by
  obtain ⟨hh, hlr, -, hl, hr⟩ := ht
  unfold rebalanceLeft
  dsimp only
  rw [if_pos (by rw [hl.branchHeight, hr.branchHeight]; omega), updateHeight, hl.branchHeight,
    hr.branchHeight, hh]
  rfl

theorem rebalanceRite_self {h name value} (ht : (TreeNode.node h l name value r).Balanced) :
    rebalanceRite (.node h l name value r) = some (.node h l name value r) := by
  have hmirror := rebalanceLeft_self (mirror_balanced.mpr ht)
  obtain ⟨u, hu, hmu⟩ := Option.map_eq_some_iff.mp
    ((mirror_rebalanceLeft (.node h l name value r)).symm.trans hmirror)
  rw [hu, ← mirror_mirror u, hmu]
  exact congrArg some (mirror_mirror (.node h l name value r))

theorem rebalanceRite_spec (h : Nat) (name value) (hl : l.Balanced) (hr : r.Balanced)
    (hrl : r.depth ≤ l.depth + 2) (hlr : l.depth ≤ r.depth + 1) :
    ∃ t', rebalanceRite (.node h l name value r) = some t' ∧
      Rebalances (.node h l name value r) r.depth l.depth t' := by
  obtain ⟨t', ht', hbalanced, hlist, hdepth⟩ := rebalanceLeft_spec h name value
    (mirror_balanced.mpr hr) (mirror_balanced.mpr hl) (by simpa) (by simpa)
  obtain ⟨u, hu, rfl⟩ := Option.map_eq_some_iff.mp
    ((mirror_rebalanceLeft (.node h l name value r)).symm.trans ht')
  refine ⟨u, hu, mirror_balanced.mp hbalanced, ?_, by simpa using hdepth⟩
  have hlist' := congrArg List.reverse hlist
  simpa [TreeNode.toList] using hlist'

/-! ## Insertion -/

end TreeNode

def NameOrder.keys {α : Type} (O : NameOrder α) : KeyOrder α where
  lt a b := O.strcmpCi a b = -1
  eq a b := O.strcmpCi a b = 0
  irrefl a := by
    have := O.swap a a
    exact decide_eq_false (by omega)
  trans {a b c} hab hbc := by
    have hac := O.trans (a := a) (b := b) (c := c)
    have hca := O.trans (a := c) (b := a) (c := b)
    have := O.swap a c
    have := O.swap b c
    have := O.range a c
    simp only [decide_eq_true_eq] at hab hbc ⊢
    omega
  eq_iff {a b} := by
    have := O.swap a b
    have := O.range a b
    simp only [decide_eq_true_eq, decide_eq_false_iff_not]
    omega
  lt_of_eq_of_lt {a b c} hab hbc := by
    have hac := O.trans (a := a) (b := b) (c := c)
    have hca := O.trans (a := c) (b := a) (c := b)
    have := O.swap a c
    have := O.swap b c
    have := O.range a c
    simp only [decide_eq_true_eq] at hab hbc ⊢
    omega
  lt_of_lt_of_eq {a b c} hab hbc := by
    have hac := O.trans (a := a) (b := b) (c := c)
    have hca := O.trans (a := b) (b := c) (c := a)
    have := O.swap a c
    have := O.swap a b
    have := O.range a c
    simp only [decide_eq_true_eq] at hab hbc ⊢
    omega

/-- A new name goes to its place; a name that is there stays with its value. -/
def addName {α : Type} (O : NameOrder α) (l : List (α × Value)) (call : α × Value) :
    List (α × Value) :=
  if (find O.keys l call.1).isSome then l else put O.keys l call.1 call.2

namespace TreeNode

variable {α : Type} {O : NameOrder α} {t l r : TreeNode α}

/-- A search tree with the AVL condition and the right heights. -/
structure NameTree (O : NameOrder α) (t : TreeNode α) : Prop where
  sorted : Sorted O.keys t.toList
  balanced : t.Balanced

/-- What `tree_insert` does with a name that is in the tree, and with one that is not. -/
inductive Inserted (O : NameOrder α) (t : TreeNode α) (name : α) (value : Value) :
    TreeNode α → Option (TreeError α) → Prop
  | duplicate {p} (hp : p ∈ t.toList) (hname : O.strcmpCi name p.1 = 0) :
      Inserted O t name value t (some ("tree_insert: Duplicate entry %s.\n", name))
  | new {t' a b} (hsplit : t.toList = a ++ b) (haround : Around O.keys name a b)
      (hlist : t'.toList = a ++ (name, value) :: b) : Inserted O t name value t' none

theorem treeInsert_spec (name value) (hsorted : Sorted O.keys t.toList) (hbalanced : t.Balanced) :
    ∃ t' error, treeInsert O t name value = some (t', error) ∧
      t'.Balanced ∧ (t'.depth = t.depth ∨ t'.depth = t.depth + 1) ∧
      Inserted O t name value t' error := by
  induction t with
  | null =>
    refine ⟨_, none, rfl, ⟨rfl, Nat.zero_le _, Nat.zero_le _, trivial, trivial⟩, .inr rfl, ?_⟩
    exact .new (a := []) (b := []) rfl ⟨by simp, by simp⟩ rfl
  | node h l tname tvalue r ihl ihr =>
    have hwhole := hbalanced
    obtain ⟨hl, hr, haround⟩ := sorted_middle.mp hsorted
    obtain ⟨-, hlr, hrl, hbl, hbr⟩ := hbalanced
    rw [treeInsert]
    rcases O.range name tname with hlt | heq | hgt
    · rw [if_neg (by omega), if_pos hlt]
      obtain ⟨l', error, hl', hbl', hdepth, hins⟩ := ihl hl hbl
      obtain ⟨t', ht', hre⟩ := rebalanceLeft_spec h tname tvalue hbl' hbr (by omega) (by omega)
      refine ⟨t', error, by rw [hl']; simp [ht'], hre.balanced, ?_, ?_⟩
      · have := hre.depth
        simp only [depth]
        omega
      · cases hins with
        | duplicate hp hname =>
          obtain rfl := Option.some.inj ((rebalanceLeft_self hwhole).symm.trans ht')
          exact .duplicate (List.mem_append_left _ hp) hname
        | @new _ a b hsplit hnew hlist =>
          refine .new (a := a) (b := b ++ (tname, tvalue) :: r.toList) ?_ ⟨hnew.below, ?_⟩ ?_
          · rw [toList, hsplit, List.append_assoc]
          · have hkey : O.keys.lt name tname = true := decide_eq_true hlt
            intro p hp
            rcases List.mem_append.mp hp with hp | hp
            · exact hnew.above p hp
            rcases List.mem_cons.mp hp with rfl | hp
            · exact hkey
            · exact O.keys.trans hkey (haround.above p hp)
          · rw [hre.toList, toList, hlist, List.append_assoc, List.cons_append]
    · rw [if_pos heq]
      exact ⟨_, _, rfl, hwhole, .inl rfl,
        .duplicate (List.mem_append_right _ List.mem_cons_self) heq⟩
    · rw [if_neg (by omega), if_neg (by omega), if_pos hgt]
      obtain ⟨r', error, hr', hbr', hdepth, hins⟩ := ihr hr hbr
      obtain ⟨t', ht', hre⟩ := rebalanceRite_spec h tname tvalue hbl hbr' (by omega) (by omega)
      refine ⟨t', error, by rw [hr']; simp [ht'], hre.balanced, ?_, ?_⟩
      · have := hre.depth
        simp only [depth]
        omega
      · cases hins with
        | duplicate hp hname =>
          obtain rfl := Option.some.inj ((rebalanceRite_self hwhole).symm.trans ht')
          exact .duplicate (List.mem_append_right _ (List.mem_cons_of_mem _ hp)) hname
        | @new _ a b hsplit hnew hlist =>
          refine .new (a := l.toList ++ (tname, tvalue) :: a) (b := b) ?_ ⟨?_, hnew.above⟩ ?_
          · rw [toList, hsplit, List.append_assoc, List.cons_append]
          · have hkey : O.keys.lt tname name = true := by
              have := O.swap tname name
              exact decide_eq_true (by omega)
            intro p hp
            rcases List.mem_append.mp hp with hp | hp
            · exact O.keys.trans (haround.below p hp) hkey
            rcases List.mem_cons.mp hp with rfl | hp
            · exact hkey
            · exact hnew.below p hp
          · rw [hre.toList, toList, hlist, List.append_assoc, List.cons_append]

theorem Inserted.addName {name value t' error} (h : Inserted O t name value t' error) :
    t'.toList = addName O t.toList (name, value) := by
  unfold Avltree.addName
  cases h with
  | @duplicate p hp hname =>
    have hfound : (find O.keys t.toList name).isSome :=
      List.find?_isSome.mpr ⟨p, hp, show O.keys.eq name p.1 = true from decide_eq_true hname⟩
    rw [if_pos hfound]
  | new hsplit haround hlist =>
    rw [hlist, hsplit, haround.find_none, if_neg (by simp), haround.put_absent]

theorem Inserted.sorted {name value t' error} (h : Inserted O t name value t' error)
    (ht : Sorted O.keys t.toList) : Sorted O.keys t'.toList := by
  cases h with
  | duplicate => exact ht
  | @new _ a b hsplit haround hlist =>
    rw [hsplit, sorted_append] at ht
    rw [hlist, sorted_middle]
    exact ⟨ht.1, ht.2.1, haround⟩

/-! ## Looking up -/

theorem treeLookup_eq (name) (ht : Sorted O.keys t.toList) :
    treeLookup O t name = find O.keys t.toList name := by
  induction t with
  | null => rfl
  | node h l tname tvalue r ihl ihr =>
    obtain ⟨hl, hr, haround⟩ := sorted_middle.mp ht
    rw [treeLookup, toList]
    rcases O.range name tname with hlt | heq | hgt
    · have hkey : O.keys.lt name tname = true := decide_eq_true hlt
      rw [if_neg (by omega), if_pos hlt, ihl hl, find_left]
      intro p hp
      rcases List.mem_cons.mp hp with rfl | hp
      · exact hkey
      · exact O.keys.trans hkey (haround.above p hp)
    · have hkey : O.keys.eq name tname = true := decide_eq_true heq
      rw [if_pos heq, (ht.around hkey).find_some hkey]
    · have hkey : O.keys.lt tname name = true := by
        have := O.swap tname name
        exact decide_eq_true (by omega)
      rw [if_neg (by omega), if_neg (by omega), ihr hr, List.append_cons, find_below]
      intro p hp
      rcases List.mem_append.mp hp with hp | hp
      · exact O.keys.trans (haround.below p hp) hkey
      · rwa [List.mem_singleton.mp hp]

/-! ## Building -/

theorem size_half {n : Nat} (hn : n ≠ 0) : n.size = (n / 2).size + 1 := by
  have hbit := Nat.size_bit (b := n.bodd) (n := n.div2) (by rwa [Nat.bit_bodd_div2])
  rwa [Nat.bit_bodd_div2, Nat.div2_val] at hbit

theorem size_le_half {n m : Nat} (h : m ≤ n) (h' : n ≤ m + 1) :
    m.size ≤ n.size ∧ n.size ≤ m.size + 1 := by
  refine ⟨Nat.size_le_size h, ?_⟩
  have := Nat.lt_size_self m
  rw [Nat.size_le, Nat.pow_succ]
  omega

theorem treeBuild_spec (high : Nat) (names : Nat → α) (value : Value) (bias : Fin 2) :
    (treeBuild high names value bias).1.Balanced ∧
      (treeBuild high names value bias).1.depth = high.size ∧
      (treeBuild high names value bias).1.toList =
        (List.range high).map fun i => (names i, value + .ofNat 64 i) := by
  induction high using Nat.strongRecOn generalizing names value bias with
  | _ high ih =>
    rw [treeBuild]
    by_cases hhigh : high > 1
    · rw [if_pos hhigh]
      -- Neither half is more than one name longer than the other.
      have hmiddle : ∃ middle, (if high % 2 = 0 then high / 2 - bias.val else high / 2) = middle ∧
          middle < high ∧ middle ≤ high / 2 ∧ high / 2 ≤ middle + 1 ∧
          high - (middle + 1) ≤ high / 2 ∧ high / 2 ≤ high - (middle + 1) + 1 ∧
          (middle = high / 2 ∨ high - (middle + 1) = high / 2) := by
        have := bias.isLt
        refine ⟨_, rfl, ?_⟩
        split <;> omega
      obtain ⟨middle, hm, hlt, h1, h2, h3, h4, h5⟩ := hmiddle
      dsimp only
      rw [hm]
      obtain ⟨hbl, hdl, hll⟩ := ih middle hlt names value
        (if high % 2 = 0 then 1 - bias else bias)
      obtain ⟨hbr, hdr, hlr⟩ := ih (high - (middle + 1)) (by omega)
        (fun i => names (middle + 1 + i)) (value + .ofNat 64 (middle + 1))
        (treeBuild middle names value (if high % 2 = 0 then 1 - bias else bias)).2
      have hsize : high.size = (high / 2).size + 1 := size_half (by omega)
      have hsizel := size_le_half h1 h2
      have hsizer := size_le_half h3 h4
      refine ⟨hbl.update hbr (by omega) (by omega), ?_, ?_⟩
      · rw [updateHeight_depth, depth, hdl, hdr, hsize]
        have hmax : middle.size = (high / 2).size ∨
            (high - (middle + 1)).size = (high / 2).size := h5.imp (congrArg _) (congrArg _)
        omega
      · rw [updateHeight_toList, toList, hll, hlr]
        have hrange : List.range high =
            List.range middle ++ middle :: (List.range (high - (middle + 1))).map (middle + 1 + ·) := by
          rw [← List.singleton_append, ← List.append_assoc, ← List.range_succ, ← List.range_add]
          congr 1
          omega
        rw [hrange, List.map_append, List.map_cons, List.map_map]
        refine congrArg (_ ++ (_, _) :: ·) (List.map_congr_left fun i _ => ?_)
        simp [BitVec.ofNat_add, BitVec.add_assoc]
    · rw [if_neg hhigh]
      by_cases hone : high = 1
      · subst hone
        simp [leafMake, Balanced, depth, toList]
      · obtain rfl : high = 0 := by omega
        simp [Balanced, depth, toList]

/-! ## Sequences of insertions -/

theorem treeInsertAll_spec (calls) (ht : NameTree O t) :
    ∃ t', treeInsertAll O t calls = some t' ∧ NameTree O t' ∧
      t'.toList = calls.foldl (addName O) t.toList := by
  induction calls generalizing t with
  | nil => exact ⟨t, rfl, ht, rfl⟩
  | cons call calls ih =>
    obtain ⟨u, error, hu, hbalanced, -, hins⟩ := treeInsert_spec call.1 call.2 ht.sorted ht.balanced
    obtain ⟨t', ht', hname, hlist⟩ := ih ⟨hins.sorted ht.sorted, hbalanced⟩
    refine ⟨t', ?_, hname, ?_⟩
    · rw [treeInsertAll, List.foldlM_cons, hu]
      exact ht'
    · rw [hlist, hins.addName, List.foldl_cons]

/-- **The trees of names**: what `tree_build` makes of sorted names is such a tree, with any bias,
and each `tree_insert` adds a name that is new and leaves the tree as it is for another. -/
theorem name_trees (O : NameOrder α) :
    (∀ high (names : Nat → α) value bias,
      (∀ i j, i < j → j < high → O.strcmpCi (names i) (names j) = -1) →
      NameTree O (treeBuild high names value bias).1 ∧
        (treeBuild high names value bias).1.toList =
          (List.range high).map fun i => (names i, value + .ofNat 64 i)) ∧
    (∀ t name value, NameTree O t →
      ∃ t' error, treeInsert O t name value = some (t', error) ∧ NameTree O t' ∧
        Inserted O t name value t' error) ∧
    ∀ t calls, NameTree O t → ∃ t', treeInsertAll O t calls = some t' ∧ NameTree O t' ∧
      t'.toList = calls.foldl (addName O) t.toList ∧
      ∀ name, treeLookup O t' name = find O.keys (calls.foldl (addName O) t.toList) name := by
  refine ⟨fun high names value bias hnames => ?_, fun t name value ht => ?_, fun t calls ht => ?_⟩
  · obtain ⟨hbalanced, -, hlist⟩ := treeBuild_spec high names value bias
    refine ⟨⟨?_, hbalanced⟩, hlist⟩
    rw [hlist, Sorted, List.pairwise_map]
    refine List.pairwise_lt_range.imp_of_mem fun {i j} _ hj hij => ?_
    exact decide_eq_true (hnames i j hij (List.mem_range.mp hj))
  · obtain ⟨t', error, ht', hbalanced, -, hins⟩ := treeInsert_spec name value ht.sorted ht.balanced
    exact ⟨t', error, ht', ⟨hins.sorted ht.sorted, hbalanced⟩, hins⟩
  · obtain ⟨t', ht', hname, hlist⟩ := treeInsertAll_spec calls ht
    exact ⟨t', ht', hname, hlist, fun name => by rw [treeLookup_eq name hname.sorted, hlist]⟩

def natNames : NameOrder Nat where
  strcmpCi a b := if a = b then 0 else if a < b then -1 else 1
  range a b := by split_ifs <;> decide
  swap a b := by split_ifs <;> omega
  trans {a b c} := by split_ifs <;> omega

theorem name_trees_four : ∃ t', treeInsertAll natNames
      (treeBuild 4 (fun i => 2 * i) 10 1).1 [(3, 50), (4, 60), (5, 70)] = some t' ∧
    treeLookup natNames t' 4 = some (4, 12) ∧ treeLookup natNames t' 5 = some (5, 70) := by
  obtain ⟨hbuild, -, hrun⟩ := name_trees natNames
  obtain ⟨hname, hlist⟩ := hbuild 4 (fun i => 2 * i) 10 1
    (fun i j hij _ => by show (if _ then _ else _) = _; split_ifs <;> omega)
  obtain ⟨t', ht', -, -, hfind⟩ := hrun _ [(3, 50), (4, 60), (5, 70)] hname
  rw [hlist] at hfind
  exact ⟨t', ht', (hfind 4).trans (by decide), (hfind 5).trans (by decide)⟩

end TreeNode

end MitScheme.Microcode.Avltree
