import MitScheme.Runtime.WtTreeBalance

/-! # Weight-balanced trees: validity

Each procedure, run with `t-join` or with a join that agrees with it where `t-join` balances
the tree, returns one and the same balanced tree. -/

namespace MitScheme.Runtime.WtTree
open Lib.SortedMap
open WtTree.Tree (empty node)
open List (append_assoc append_nil cons_append filter_append filter_cons length_append length_cons
  mem_append_right mem_filter not_mem_nil)

variable {α β : Type} {k x : α} {v : β} {l r t : Tree α β} {w : Nat} {O : KeyOrder α}

/-! ## Joins -/

/-- A join that does what `t-join` does on trees that it balances. -/
def Agree (join : Join α β) : Prop :=
  ∀ k v l r, Shape l → Shape r → Joinable l r → join k v l r = tJoin k v l r

theorem agree_checkedJoin : Agree (checkedJoin : Join α β) := by
  intro k v l r hl hr hjoin
  obtain ⟨t, ht, hshape, -⟩ := tJoin_spec hl hr hjoin k v
  simp only [checkedJoin, ht, bind, Except.bind]
  exact if_pos hshape.balanced

def Gives (join : Join α β) (f : Join α β → Except Fault (Tree α β)) (P : Tree α β → Prop) :
    Prop :=
  ∃ t, f join = .ok t ∧ f tJoin = .ok t ∧ Shape t ∧ P t

variable {join : Join α β} {f : Join α β → Except Fault (Tree α β)} {P Q : Tree α β → Prop}

theorem Gives.of_ok (ht : Shape t) (hP : P t) : Gives join (fun _ => .ok t) P :=
  ⟨t, rfl, rfl, ht, hP⟩

theorem Gives.bind {g : Join α β → Tree α β → Except Fault (Tree α β)} (hf : Gives join f P)
    (hg : ∀ t, Shape t → P t → Gives join (fun j => g j t) Q) :
    Gives join (fun j => f j >>= g j) Q := by
  obtain ⟨t, hjoin, htJoin, ht, hP⟩ := hf
  obtain ⟨t', hjoin', htJoin', ht', hQ⟩ := hg t ht hP
  refine ⟨t', ?_, ?_, ht', hQ⟩
  · show (f join >>= g join) = _
    rw [hjoin]
    exact hjoin'
  · show (f tJoin >>= g tJoin) = _
    rw [htJoin]
    exact htJoin'

theorem Gives.mono (hf : Gives join f P) (himp : ∀ t, Shape t → P t → Q t) : Gives join f Q := by
  obtain ⟨t, hjoin, htJoin, ht, hP⟩ := hf
  exact ⟨t, hjoin, htJoin, ht, himp t ht hP⟩

theorem Agree.gives (hj : Agree join) (hl : Shape l) (hr : Shape r) (hjoin : Joinable l r) (k v) :
    Gives join (fun j => j k v l r) fun t => t.toList = l.toList ++ (k, v) :: r.toList := by
  obtain ⟨t, ht, hshape, hlist⟩ := tJoin_spec hl hr hjoin k v
  exact ⟨t, (hj k v l r hl hr hjoin).trans ht, ht, hshape, hlist⟩

theorem size_le_succ {a b : Nat} (hab : a ≤ b + 1) : a.size ≤ b.size + 1 := by
  have hb := (size_join_bounds b 0).2.2.1
  have ha := Nat.size_le_size (show a ≤ 1 + b + 0 by omega)
  rw [Nat.size_zero, Nat.max_zero] at hb
  omega

theorem Close.joinable_left {l'} (hclose : Close l.size r.size) (h1 : l'.size ≤ l.size + 1)
    (h2 : l.size ≤ l'.size + 1) : Joinable l' r := by
  have h1' := size_le_succ h1
  have h2' := size_le_succ h2
  exact ⟨Nat.le_trans h1' (Nat.succ_le_succ hclose.1), Nat.le_trans hclose.2 (by omega)⟩

theorem Close.joinable_right {r'} (hclose : Close l.size r.size) (h1 : r'.size ≤ r.size + 1)
    (h2 : r.size ≤ r'.size + 1) : Joinable l r' := by
  obtain ⟨h3, h4⟩ := hclose.symm.joinable_left h1 h2
  exact ⟨h4, h3⟩

/-! ## Minima -/

theorem node_ne_empty : node k v l r w ≠ empty := by
  intro heq
  cases heq

theorem delmin_spec (hj : Agree join) (ht : Shape t) (hne : t ≠ .empty) :
    ∃ p, min t = .ok p ∧
      Gives join (fun j => delmin j t) fun t' => t.toList = p :: t'.toList := by
  induction t with
  | empty => exact absurd rfl hne
  | node k v l r w ihl ihr =>
    obtain ⟨hl, hr, hclose, -⟩ := ht.node
    cases l with
    | empty => exact ⟨(k, v), rfl, .of_ok hr rfl⟩
    | node kl vl ll lr wl =>
      obtain ⟨p, hmin, hdel⟩ := ihl hl node_ne_empty
      refine ⟨p, hmin, hdel.bind fun l' hl' hlist => ?_⟩
      have hsize : (node kl vl ll lr wl).size = l'.size + 1 := by
        rw [hl.size_eq, hl'.size_eq, hlist, length_cons]
      refine (hj.gives hl' hr (hclose.joinable_left ?_ ?_) k v).mono fun t' _ ht' => ?_
      · omega
      · omega
      · rw [ht', Tree.toList, hlist]
        rfl

theorem exists_delmin (hj : Agree join) (ht : Shape t) (hne : t ≠ .empty) :
    ∃ k v, min t = .ok (k, v) ∧
      Gives join (fun j => delmin j t) fun t' => t.toList = (k, v) :: t'.toList := by
  obtain ⟨⟨k, v⟩, hmin, hdel⟩ := delmin_spec hj ht hne
  exact ⟨k, v, hmin, hdel⟩

theorem concat2_eq (hl : l ≠ .empty) (hr : r ≠ .empty) (hmin : min r = .ok (k, v)) :
    concat2 join l r = delmin join r >>= fun r => join k v l r := by
  cases l with
  | empty => exact absurd rfl hl
  | node =>
    cases r with
    | empty => exact absurd rfl hr
    | node =>
      rw [concat2, hmin]
      · rfl
      · exact hl
      · exact hr

theorem concat2_spec (hj : Agree join) (hl : Shape l) (hr : Shape r)
    (hclose : Close l.size r.size) :
    Gives join (fun j => concat2 j l r) fun t => t.toList = l.toList ++ r.toList := by
  by_cases hel : l = .empty
  · subst hel
    cases r <;> exact .of_ok hr rfl
  by_cases her : r = .empty
  · subst her
    cases l <;> exact .of_ok hl (append_nil _).symm
  obtain ⟨k, v, hmin, hdel⟩ := exists_delmin hj hr her
  simp only [concat2_eq hel her hmin]
  refine hdel.bind fun r' hr' hlist => ?_
  have hsize : r.size = r'.size + 1 := by
    rw [hr.size_eq, hr'.size_eq, hlist, length_cons]
  refine (hj.gives hl hr' (hclose.joinable_right ?_ ?_) k v).mono fun t' _ ht' => ?_
  · omega
  · omega
  · rw [ht', hlist]

/-! ## Adding and deleting -/

variable {a b : List (α × β)} {pick : Option (α × β) → Option (α × β) → Option (α × β)}

theorem Sorted.around_lt {key : α} {val : β} (hs : Sorted O (a ++ (key, val) :: b))
    (hlt : O.lt k key = true) : ∀ p ∈ (key, val) :: b, O.lt k p.1 = true := by
  intro p hp
  rcases List.mem_cons.mp hp with rfl | hp
  · exact hlt
  · exact O.trans hlt ((sorted_middle.mp hs).2.2.above p hp)

theorem Sorted.around_gt {key : α} {val : β} (hs : Sorted O (a ++ (key, val) :: b))
    (hgt : O.lt key k = true) : ∀ p ∈ a ++ [(key, val)], O.lt p.1 k = true := by
  intro p hp
  rcases List.mem_append.mp hp with hp | hp
  · exact O.trans ((sorted_middle.mp hs).2.2.below p hp) hgt
  · rw [List.mem_singleton.mp hp]
    exact hgt

inductive Added (O : KeyOrder α) (k : α) (v : β) : List (α × β) → List (α × β) → Prop
  | absent {a b : List (α × β)} : Around O k a b → Added O k v (a ++ b) (a ++ (k, v) :: b)
  | present {a b : List (α × β)} {key : α} {val : β} : Around O k a b → O.eq k key = true →
    Added O k v (a ++ (key, val) :: b) (a ++ (key, v) :: b)

theorem Added.put_eq {old new} (h : Added O k v old new) : new = put O old k v := by
  cases h with
  | absent haround => rw [haround.put_absent]
  | present haround heq => rw [haround.put_present heq]

theorem Added.append {old new} (h : Added O k v old new) (hb : ∀ p ∈ b, O.lt k p.1 = true) :
    Added O k v (old ++ b) (new ++ b) := by
  cases h with
  | absent haround =>
    rw [append_assoc, append_assoc, cons_append]
    refine .absent ⟨haround.below, fun p hp => ?_⟩
    exact (List.mem_append.mp hp).elim (haround.above p) (hb p)
  | present haround heq =>
    rw [append_assoc, append_assoc, cons_append, cons_append]
    refine .present ⟨haround.below, fun p hp => ?_⟩ heq
    exact (List.mem_append.mp hp).elim (haround.above p) (hb p)

theorem Added.prepend {old new} (h : Added O k v old new) (ha : ∀ p ∈ a, O.lt p.1 k = true) :
    Added O k v (a ++ old) (a ++ new) := by
  cases h with
  | absent haround =>
    rw [← append_assoc, ← append_assoc]
    refine .absent ⟨fun p hp => ?_, haround.above⟩
    exact (List.mem_append.mp hp).elim (ha p) (haround.below p)
  | present haround heq =>
    rw [← append_assoc, ← append_assoc]
    refine .present ⟨fun p hp => ?_, haround.above⟩ heq
    exact (List.mem_append.mp hp).elim (ha p) (haround.below p)

theorem Added.length {old new} (h : Added O k v old new) :
    old.length ≤ new.length ∧ new.length ≤ old.length + 1 := by
  cases h with
  | absent =>
    rw [length_append, length_append, length_cons]
    omega
  | present =>
    rw [length_append, length_append, length_cons, length_cons]
    omega

theorem add_spec (hj : Agree join) (ht : Shape t) (hs : Sorted O t.toList) (k v) :
    Gives join (fun j => add O j k v t) fun t' => Added O k v t.toList t'.toList := by
  induction t with
  | empty =>
    refine .of_ok (shape_empty.nJoin shape_empty ⟨Nat.le_succ _, Nat.le_succ _⟩) ?_
    refine Added.absent (a := []) (b := []) ⟨?_, ?_⟩ <;>
      exact fun p hp => absurd hp not_mem_nil
  | node key val l r w ihl ihr =>
    obtain ⟨hl, hr, hclose, -⟩ := ht.node
    obtain ⟨hsl, hsr, haround⟩ := sorted_middle.mp hs
    simp only [add]
    cases hlt : O.lt k key with
    | true =>
      refine (ihl hl hsl).bind fun l' hl' hadd => ?_
      have hlen := hadd.length
      rw [← hl.size_eq, ← hl'.size_eq] at hlen
      refine (hj.gives hl' hr (hclose.joinable_left ?_ ?_) key val).mono fun t' _ ht' => ?_
      · omega
      · omega
      · rw [ht', Tree.toList]
        exact hadd.append (Sorted.around_lt hs hlt)
    | false =>
      cases hgt : O.lt key k with
      | true =>
        refine (ihr hr hsr).bind fun r' hr' hadd => ?_
        have hlen := hadd.length
        rw [← hr.size_eq, ← hr'.size_eq] at hlen
        refine (hj.gives hl hr' (hclose.joinable_right ?_ ?_) key val).mono fun t' _ ht' => ?_
        · omega
        · omega
        · have hadd' := hadd.prepend (Sorted.around_gt hs hgt)
          rw [append_assoc, append_assoc] at hadd'
          rw [ht', Tree.toList]
          exact hadd'
      | false =>
        refine .of_ok (hl.nJoin hr hclose) ?_
        have heq : O.eq k key = true := O.eq_iff.mpr ⟨hlt, hgt⟩
        exact .present (Sorted.around hs heq) heq

theorem delete_spec (hj : Agree join) (ht : Shape t) (hs : Sorted O t.toList) (x) :
    Gives join (fun j => delete O j x t) fun t' => t'.toList = remove O t.toList x ∧
      t.toList.length ≤ t'.toList.length + 1 := by
  induction t with
  | empty => exact .of_ok ht ⟨rfl, Nat.le_succ _⟩
  | node key val l r w ihl ihr =>
    obtain ⟨hl, hr, hclose, -⟩ := ht.node
    obtain ⟨hsl, hsr, haround⟩ := sorted_middle.mp hs
    have hremove : ∀ b : List (α × β), remove O (l.toList ++ b) x =
        remove O l.toList x ++ remove O b x := fun b => filter_append ..
    simp only [delete]
    cases hlt : O.lt x key with
    | true =>
      refine (ihl hl hsl).bind fun l' hl' hdel => ?_
      obtain ⟨hlist, hlen⟩ := hdel
      have hle : l'.toList.length ≤ l.toList.length := hlist ▸ List.length_filter_le ..
      rw [← hl.size_eq, ← hl'.size_eq] at hlen hle
      refine (hj.gives hl' hr (hclose.joinable_left ?_ ?_) key val).mono fun t' _ ht' => ⟨?_, ?_⟩
      · omega
      · omega
      · have hrest := Around.remove_absent (O := O) (a := []) (b := (key, val) :: r.toList)
          ⟨fun p hp => absurd hp not_mem_nil, Sorted.around_lt hs hlt⟩
        rw [ht', Tree.toList, hremove, hlist]
        exact congrArg _ hrest.symm
      · rw [ht', Tree.toList, length_append, length_append, ← hl.size_eq,
          ← hl'.size_eq]
        omega
    | false =>
      cases hgt : O.lt key x with
      | true =>
        refine (ihr hr hsr).bind fun r' hr' hdel => ?_
        obtain ⟨hlist, hlen⟩ := hdel
        have hle : r'.toList.length ≤ r.toList.length := hlist ▸ List.length_filter_le ..
        rw [← hr.size_eq, ← hr'.size_eq] at hlen hle
        refine (hj.gives hl hr' (hclose.joinable_right ?_ ?_) key val).mono
          fun t' _ ht' => ⟨?_, ?_⟩
        · omega
        · omega
        · have hrest := Around.remove_absent (O := O) (a := l.toList ++ [(key, val)]) (b := [])
            ⟨Sorted.around_gt hs hgt, fun p hp => absurd hp not_mem_nil⟩
          rw [append_nil] at hrest
          calc t'.toList = l.toList ++ [(key, val)] ++ remove O r.toList x := by
                rw [ht', hlist, append_assoc]
                rfl
            _ = remove O (l.toList ++ [(key, val)]) x ++ remove O r.toList x := by rw [hrest]
            _ = remove O (l.toList ++ [(key, val)] ++ r.toList) x :=
                (filter_append ..).symm
            _ = remove O (node key val l r w).toList x := by
                rw [append_assoc]
                rfl
        · rw [ht', Tree.toList, length_append, length_append, length_cons,
            length_cons, ← hr.size_eq, ← hr'.size_eq]
          omega
      | false =>
        have heq : O.eq x key = true := O.eq_iff.mpr ⟨hlt, hgt⟩
        refine (concat2_spec hj hl hr hclose).mono fun t' _ ht' => ⟨?_, ?_⟩
        · rw [ht', Tree.toList, (Sorted.around hs heq).remove_present heq]
        · rw [ht', Tree.toList, length_append, length_append, length_cons]
          omega

/-! ## Concatenating -/

theorem joinable_concat {a b c s} (hover : a.size + 2 ≤ (1 + b + c).size) (hbc : Close b c)
    (hs : s = 1 + a + b) : s.size ≤ c.size + 2 ∧ c.size ≤ s.size + 2 := by
  obtain ⟨h1, h2⟩ := hbc
  have h3 := size_join_bounds b c
  have h4 := size_join_bounds a b
  rw [hs]
  omega

theorem concat3_node {k1 k2 v1 v2 l1 r1 l2 r2 w1 w2} :
    concat3 O join k v (node k1 v1 l1 r1 w1) (node k2 v2 l2 r2 w2) =
      if overweight w1 w2 then
        concat3 O join k v (node k1 v1 l1 r1 w1) l2 >>= fun l2 => join k2 v2 l2 r2
      else if overweight w2 w1 then
        concat3 O join k v r1 (node k2 v2 l2 r2 w2) >>= fun r1 => join k1 v1 l1 r1
      else .ok (nJoin k v (node k1 v1 l1 r1 w1) (node k2 v2 l2 r2 w2)) := by
  rw [concat3]

theorem concat3_empty_left (r) : concat3 O join k v empty r = add O join k v r := by
  rw [concat3]

theorem concat3_empty_right (l) : concat3 O join k v l empty = add O join k v l := by
  cases l with
  | empty => rw [concat3]
  | node =>
    rw [concat3]
    exact node_ne_empty

theorem put_below (hb : ∀ p ∈ b, O.lt k p.1 = true) : put O b k v = (k, v) :: b :=
  Around.put_absent (O := O) (a := []) ⟨fun _ hp => absurd hp not_mem_nil, hb⟩

theorem put_above (ha : ∀ p ∈ a, O.lt p.1 k = true) : put O a k v = a ++ [(k, v)] := by
  have hput := Around.put_absent (O := O) (v := v) (b := [])
    ⟨ha, fun p hp => absurd hp not_mem_nil⟩
  rwa [append_nil] at hput

theorem concat3_spec (hj : Agree join) (hl : Shape l) : ∀ {r : Tree α β}, Shape r →
    Sorted O (l.toList ++ (k, v) :: r.toList) →
    Gives join (fun j => concat3 O j k v l r) fun t =>
      t.toList = l.toList ++ (k, v) :: r.toList := by
  induction l with
  | empty =>
    intro r hr hs
    obtain ⟨-, hsr, haround⟩ := sorted_middle.mp hs
    simp only [concat3_empty_left]
    refine (add_spec hj hr hsr k v).mono fun t _ hadd => ?_
    rw [hadd.put_eq, put_below haround.above]
    rfl
  | node k1 v1 l1 r1 w1 ihl1 ihr1 =>
    intro r hr
    induction r with
    | empty =>
      intro hs
      obtain ⟨hsl, -, haround⟩ := sorted_middle.mp hs
      simp only [concat3_empty_right]
      refine (add_spec hj hl hsl k v).mono fun t _ hadd => ?_
      rw [hadd.put_eq, put_above haround.below]
      rfl
    | node k2 v2 l2 r2 w2 ihl2 ihr2 =>
      intro hs
      obtain ⟨hl1, hr1, hclose1, hw1⟩ := hl.node
      obtain ⟨hl2, hr2, hclose2, hw2⟩ := hr.node
      simp only [concat3_node]
      cases hright : overweight w1 w2 with
      | true =>
        have hover := overweight_iff.mp hright
        have hs' : Sorted O ((node k1 v1 l1 r1 w1).toList ++ (k, v) :: l2.toList) := by
          rw [show (node k2 v2 l2 r2 w2).toList = l2.toList ++ (k2, v2) :: r2.toList from rfl,
            ← cons_append, ← append_assoc] at hs
          exact (sorted_append.mp hs).1
        refine (ihl2 hl2 hs').bind fun l2' hl2' hlist => ?_
        have hsize : l2'.size = 1 + w1 + l2.size := by
          have hw : w1 = (node k1 v1 l1 r1 w1).toList.length := hl.size_eq
          rw [hl2'.size_eq, hlist, length_append, length_cons, ← hw, hl2.size_eq]
          omega
        rw [hw2] at hover
        refine (hj.gives hl2' hr2 (joinable_concat hover hclose2 hsize) k2 v2).mono
          fun t _ ht => ?_
        rw [ht, hlist, append_assoc]
        rfl
      | false =>
        cases hleft : overweight w2 w1 with
        | true =>
          have hover := overweight_iff.mp hleft
          have hs' : Sorted O (r1.toList ++ (k, v) :: (node k2 v2 l2 r2 w2).toList) := by
            rw [show (node k1 v1 l1 r1 w1).toList = l1.toList ++ (k1, v1) :: r1.toList from rfl,
              append_assoc, cons_append] at hs
            exact (sorted_middle.mp hs).2.1
          refine (ihr1 hr1 hr hs').bind fun r1' hr1' hlist => ?_
          have hsize : r1'.size = 1 + w2 + r1.size := by
            have hw : w2 = (node k2 v2 l2 r2 w2).toList.length := hr.size_eq
            rw [hr1'.size_eq, hlist, length_append, length_cons, ← hw, hr1.size_eq]
            omega
          rw [hw1, show 1 + l1.size + r1.size = 1 + r1.size + l1.size by omega] at hover
          have hjoin := joinable_concat hover hclose1.symm hsize
          refine (hj.gives hl1 hr1' ⟨hjoin.2, hjoin.1⟩ k1 v1).mono fun t _ ht => ?_
          rw [ht, hlist,
            show (node k1 v1 l1 r1 w1).toList = l1.toList ++ (k1, v1) :: r1.toList from rfl,
            append_assoc]
          rfl
        | false =>
          exact .of_ok (hl.nJoin hr
            ⟨overweight_false.mp hleft, overweight_false.mp hright⟩) rfl

theorem concat_eq (hl : l ≠ .empty) (hr : r ≠ .empty) (hmin : min r = .ok (k, v)) :
    concat O join l r = delmin join r >>= fun r => concat3 O join k v l r := by
  cases l with
  | empty => exact absurd rfl hl
  | node =>
    cases r with
    | empty => exact absurd rfl hr
    | node =>
      rw [concat, hmin]
      · rfl
      · exact hl
      · exact hr

theorem concat_spec (hj : Agree join) (hl : Shape l) (hr : Shape r)
    (hs : Sorted O (l.toList ++ r.toList)) :
    Gives join (fun j => concat O j l r) fun t => t.toList = l.toList ++ r.toList := by
  by_cases hel : l = .empty
  · subst hel
    cases r <;> exact .of_ok hr rfl
  by_cases her : r = .empty
  · subst her
    cases l <;> exact .of_ok hl (append_nil _).symm
  obtain ⟨k, v, hmin, hdel⟩ := exists_delmin hj hr her
  simp only [concat_eq hel her hmin]
  refine hdel.bind fun r' hr' hlist => ?_
  rw [hlist] at hs ⊢
  exact concat3_spec hj hl hr' hs

/-! ## Splitting -/

theorem filter_below (ha : ∀ p ∈ a, O.lt p.1 x = true) :
    a.filter (fun p => O.lt p.1 x) = a ∧ a.filter (fun p => O.lt x p.1) = [] := by
  refine ⟨List.filter_eq_self.mpr ha, List.filter_eq_nil_iff.mpr fun p hp => ?_⟩
  rw [O.not_lt_of_lt (ha p hp)]
  exact Bool.false_ne_true

theorem filter_above (hb : ∀ p ∈ b, O.lt x p.1 = true) :
    b.filter (fun p => O.lt p.1 x) = [] ∧ b.filter (fun p => O.lt x p.1) = b := by
  refine ⟨List.filter_eq_nil_iff.mpr fun p hp => ?_, List.filter_eq_self.mpr hb⟩
  rw [O.not_lt_of_lt (hb p hp)]
  exact Bool.false_ne_true

theorem filter_eq {key : α} {val : β} (heq : O.eq x key = true) :
    [(key, val)].filter (fun p => O.lt p.1 x) = [] ∧
      [(key, val)].filter (fun p => O.lt x p.1) = [] := by
  obtain ⟨hlt, hgt⟩ := O.eq_iff.mp heq
  rw [filter_cons, filter_cons]
  simp only [hlt, hgt]
  exact ⟨rfl, rfl⟩

theorem splitLt_spec (hj : Agree join) (ht : Shape t) (hs : Sorted O t.toList) (x) :
    Gives join (fun j => splitLt O j x t) fun t' =>
      t'.toList = t.toList.filter fun p => O.lt p.1 x := by
  induction t with
  | empty => exact .of_ok ht rfl
  | node key val l r w ihl ihr =>
    obtain ⟨hl, hr, -, -⟩ := ht.node
    obtain ⟨hsl, hsr, haround⟩ := sorted_middle.mp hs
    rw [Tree.toList, filter_append]
    simp only [splitLt]
    cases hlt : O.lt x key with
    | true =>
      rw [(filter_above (Sorted.around_lt hs hlt)).1, append_nil]
      exact ihl hl hsl
    | false =>
      cases hgt : O.lt key x with
      | true =>
        refine (ihr hr hsr).bind fun r' hr' hlist => ?_
        have hs' : Sorted O (l.toList ++ (key, val) :: r'.toList) := by
          refine sorted_middle.mpr ⟨hsl, ?_, haround.below, ?_⟩
          · rw [hlist]
            exact hsr.filter _
          · rw [hlist]
            exact fun p hp => haround.above p (mem_filter.mp hp).1
        refine (concat3_spec hj hl hr' hs').mono fun t' _ ht' => ?_
        have hbelow := (filter_below fun p hp => O.trans (haround.below p hp) hgt).1
        rw [ht', hlist, hbelow, filter_cons, if_pos hgt]
      | false =>
        have heq : O.eq x key = true := O.eq_iff.mpr ⟨hlt, hgt⟩
        have haround' := Sorted.around hs heq
        refine .of_ok hl ?_
        rw [(filter_below haround'.below).1, ← List.singleton_append, filter_append,
          (filter_eq heq).1, (filter_above haround'.above).1]
        exact (append_nil _).symm

theorem splitGt_spec (hj : Agree join) (ht : Shape t) (hs : Sorted O t.toList) (x) :
    Gives join (fun j => splitGt O j x t) fun t' =>
      t'.toList = t.toList.filter fun p => O.lt x p.1 := by
  induction t with
  | empty => exact .of_ok ht rfl
  | node key val l r w ihl ihr =>
    obtain ⟨hl, hr, -, -⟩ := ht.node
    obtain ⟨hsl, hsr, haround⟩ := sorted_middle.mp hs
    rw [Tree.toList, List.append_cons, filter_append]
    simp only [splitGt]
    cases hgt : O.lt key x with
    | true =>
      rw [(filter_below (Sorted.around_gt hs hgt)).2, List.nil_append]
      exact ihr hr hsr
    | false =>
      cases hlt : O.lt x key with
      | true =>
        refine (ihl hl hsl).bind fun l' hl' hlist => ?_
        have hs' : Sorted O (l'.toList ++ (key, val) :: r.toList) := by
          refine sorted_middle.mpr ⟨?_, hsr, ?_, haround.above⟩
          · rw [hlist]
            exact hsl.filter _
          · rw [hlist]
            exact fun p hp => haround.below p (mem_filter.mp hp).1
        refine (concat3_spec hj hl' hr hs').mono fun t' _ ht' => ?_
        have habove := (filter_above fun p hp => O.trans hlt (haround.above p hp)).2
        rw [ht', hlist, habove, filter_append, filter_cons, if_pos hlt,
          append_assoc]
        rfl
      | false =>
        have heq : O.eq x key = true := O.eq_iff.mpr ⟨hlt, hgt⟩
        have haround' := Sorted.around hs heq
        refine .of_ok hr ?_
        rw [filter_append, (filter_below haround'.below).2, (filter_eq heq).2,
          (filter_above haround'.above).2]
        rfl

/-! ## Finding -/

theorem findLoop_spec {b} (hs : Sorted O t.toList)
    (hbest : ∀ p, b = some p → ∀ q ∈ t.toList, O.lt p.1 q.1 = true) :
    (findLoop O k t b).filter (fun p => !O.lt p.1 k) =
      (Lib.SortedMap.find O t.toList k).or (b.filter fun p => !O.lt p.1 k) := by
  induction t generalizing b with
  | empty => rfl
  | node key v l r w ihl ihr =>
    obtain ⟨hsl, hsr, haround⟩ := sorted_middle.mp hs
    rw [findLoop]
    cases hlt : O.lt k key with
    | true =>
      rw [if_pos rfl, ihl hsl fun p hp q hq => hbest p hp q (List.mem_append_left _ hq),
        Tree.toList, find_left (Sorted.around_lt hs hlt)]
    | false =>
      rw [if_neg Bool.false_ne_true, ihr hsr fun p hp q hq => by
        cases hp
        exact haround.above q hq]
      cases hgt : O.lt key k with
      | true =>
        -- the last node kept is still below the key
        have hdrop : b.filter (fun p => !O.lt p.1 k) = none := by
          cases b with
          | none => rfl
          | some p =>
            have hp : O.lt p.1 key = true :=
              hbest p rfl (key, v) (mem_append_right _ List.mem_cons_self)
            rw [Option.filter_some, if_neg (by rw [O.trans hp hgt]; exact Bool.false_ne_true)]
        rw [hdrop, Option.filter_some, if_neg (by rw [hgt]; exact Bool.false_ne_true),
          Tree.toList, List.append_cons, find_below (Sorted.around_gt hs hgt)]
      | false =>
        have heq : O.eq k key = true := O.eq_iff.mpr ⟨hlt, hgt⟩
        have haround' := Sorted.around hs heq
        rw [Option.filter_some, if_pos (by rw [hgt]; rfl), find_above haround'.above,
          Tree.toList, haround'.find_some heq]
        rfl

theorem find_spec (hs : Sorted O t.toList) (k) : find O k t = Lib.SortedMap.find O t.toList k := by
  have h := findLoop_spec (k := k) hs (b := none) fun p hp => by cases hp
  rw [Option.filter_none, Option.or_none] at h
  rw [← h, find]
  cases findLoop O k t none with
  | none => rfl
  | some p =>
    rw [Option.filter_some]
    cases hlt : O.lt p.1 k <;> simp [hlt]

/-! ## Unions, intersections and differences -/

def KeysFrom (c a b : List (α × β)) : Prop :=
  ∀ p ∈ c, (∃ q ∈ a, q.1 = p.1) ∨ ∃ q ∈ b, q.1 = p.1

theorem KeysFrom.all {c : List (α × β)} {P : α → Prop} (h : KeysFrom c a b) (ha : ∀ p ∈ a, P p.1)
    (hb : ∀ p ∈ b, P p.1) : ∀ p ∈ c, P p.1 := by
  intro p hp
  rcases h p hp with ⟨q, hq, heq⟩ | ⟨q, hq, heq⟩
  · exact heq ▸ ha q hq
  · exact heq ▸ hb q hq

theorem KeysFrom.mono {a' b' c : List (α × β)} (h : KeysFrom c a b) (ha : a ⊆ a') (hb : b ⊆ b') :
    KeysFrom c a' b' := by
  intro p hp
  rcases h p hp with ⟨q, hq, heq⟩ | ⟨q, hq, heq⟩
  · exact .inl ⟨q, ha hq, heq⟩
  · exact .inr ⟨q, hb hq, heq⟩

def Combined (O : KeyOrder α) (t1 t2 t : Tree α β) : Prop :=
  Sorted O t.toList ∧ KeysFrom t.toList t1.toList t2.toList

/-- The pair under a key is picked from the pairs that the two trees have under it. -/
def Picks (O : KeyOrder α) (pick : Option (α × β) → Option (α × β) → Option (α × β))
    (t1 t2 t : Tree α β) : Prop :=
  ∀ k, Lib.SortedMap.find O t.toList k =
    pick (Lib.SortedMap.find O t1.toList k) (Lib.SortedMap.find O t2.toList k)

theorem find_parts {m : Option (α × β)} {ak} (hbelow : ∀ p ∈ a, O.lt p.1 ak = true)
    (habove : ∀ p ∈ b, O.lt ak p.1 = true) (hmid : ∀ p, m = some p → p.1 = ak) (k) :
    Lib.SortedMap.find O (a ++ (m.toList ++ b)) k =
      if O.lt k ak then Lib.SortedMap.find O a k
      else if O.lt ak k then Lib.SortedMap.find O b k else m := by
  have hrest : ∀ p ∈ m.toList ++ b, p.1 = ak ∨ O.lt ak p.1 = true := by
    intro p hp
    rcases List.mem_append.mp hp with hp | hp
    · exact .inl (hmid p (Option.mem_toList.mp hp))
    · exact .inr (habove p hp)
  cases hlt : O.lt k ak with
  | true =>
    refine find_left fun p hp => ?_
    rcases hrest p hp with he | he
    · rw [he, hlt]
    · exact O.trans hlt he
  | false =>
    cases hgt : O.lt ak k with
    | true =>
      rw [← append_assoc]
      refine find_below fun p hp => ?_
      rcases List.mem_append.mp hp with hp | hp
      · exact O.trans (hbelow p hp) hgt
      · rw [hmid p (Option.mem_toList.mp hp), hgt]
    | false =>
      have heq : O.eq k ak = true := O.eq_iff.mpr ⟨hlt, hgt⟩
      have haround : Around O k a b := ⟨fun p hp => O.lt_of_lt_of_eq (hbelow p hp) (O.eq_symm heq),
        fun p hp => O.lt_of_eq_of_lt heq (habove p hp)⟩
      cases m with
      | none => exact haround.find_none
      | some p =>
        obtain ⟨k', v⟩ := p
        obtain rfl : k' = ak := hmid _ rfl
        exact haround.find_some heq

theorem combined_of_parts {f g : Join α β → Tree α β → Tree α β → Except Fault (Tree α β)}
    {t1 : Tree α β} {ak av} {m : Option (α × β)}
    (hpick : m = pick (Lib.SortedMap.find O t1.toList ak) (some (ak, av)))
    (hmid : ∀ p, m = some p → p.1 = ak) (hj : Agree join) (h1 : Shape t1)
    (hs1 : Sorted O t1.toList) (h2 : Shape (node ak av l r w))
    (hs2 : Sorted O (node ak av l r w).toList)
    (ihl : ∀ t1, Shape t1 → Sorted O t1.toList → Shape l → Sorted O l.toList →
      Gives join (fun j => f j t1 l) fun t => Combined O t1 l t ∧ Picks O pick t1 l t)
    (ihr : ∀ t1, Shape t1 → Sorted O t1.toList → Shape r → Sorted O r.toList →
      Gives join (fun j => f j t1 r) fun t => Combined O t1 r t ∧ Picks O pick t1 r t)
    (hg : ∀ l' r', Shape l' → Shape r' → Sorted O (l'.toList ++ (ak, av) :: r'.toList) →
      Gives join (fun j => g j l' r') fun t =>
        t.toList = l'.toList ++ (m.toList ++ r'.toList)) :
    Gives join (fun j => do
      let l1 ← splitLt O j ak t1
      let r1 ← splitGt O j ak t1
      let l ← f j l1 l
      let r ← f j r1 r
      g j l r)
      fun t => Combined O t1 (node ak av l r w) t ∧ Picks O pick t1 (node ak av l r w) t := by
  obtain ⟨hl, hr, -, -⟩ := h2.node
  obtain ⟨hsl, hsr, haround⟩ := sorted_middle.mp hs2
  refine (splitLt_spec hj h1 hs1 ak).bind fun l1 hl1 hlist1 => ?_
  refine (splitGt_spec hj h1 hs1 ak).bind fun r1 hr1 hlistr1 => ?_
  have hsl1 : Sorted O l1.toList := hlist1 ▸ hs1.filter _
  have hsr1 : Sorted O r1.toList := hlistr1 ▸ hs1.filter _
  refine (ihl l1 hl1 hsl1 hl hsl).bind fun l' hl' hcl => ?_
  refine (ihr r1 hr1 hsr1 hr hsr).bind fun r' hr' hcr => ?_
  obtain ⟨hcl, hpl⟩ := hcl
  obtain ⟨hcr, hpr⟩ := hcr
  have hbelow : ∀ p ∈ l'.toList, O.lt p.1 ak = true := by
    refine hcl.2.all (P := fun k => O.lt k ak = true) (fun p hp => ?_) haround.below
    rw [hlist1, mem_filter] at hp
    exact hp.2
  have habove : ∀ p ∈ r'.toList, O.lt ak p.1 = true := by
    refine hcr.2.all (P := fun k => O.lt ak k = true) (fun p hp => ?_) haround.above
    rw [hlistr1, mem_filter] at hp
    exact hp.2
  have hsorted : Sorted O (l'.toList ++ (ak, av) :: r'.toList) :=
    sorted_middle.mpr ⟨hcl.1, hcr.1, hbelow, habove⟩
  have hkl : KeysFrom l'.toList t1.toList (node ak av l r w).toList := by
    refine hcl.2.mono (fun p hp => ?_) (List.subset_append_left _ _)
    rw [hlist1, mem_filter] at hp
    exact hp.1
  have hkr : KeysFrom r'.toList t1.toList (node ak av l r w).toList := by
    refine hcr.2.mono (fun p hp => ?_) fun p hp =>
      mem_append_right _ (List.mem_cons_of_mem _ hp)
    rw [hlistr1, mem_filter] at hp
    exact hp.1
  refine (hg l' r' hl' hr' hsorted).mono fun t _ ht => ⟨⟨?_, ?_⟩, ?_⟩
  · rw [ht]
    cases m with
    | none =>
      exact sorted_append.mpr ⟨hcl.1, hcr.1, fun p hp q hq =>
        O.trans (hbelow p hp) (habove q hq)⟩
    | some p =>
      obtain ⟨k', v⟩ := p
      obtain rfl : k' = ak := hmid _ rfl
      exact sorted_middle.mpr ⟨hcl.1, hcr.1, hbelow, habove⟩
  · rw [ht]
    intro p hp
    rcases List.mem_append.mp hp with hp | hp
    · exact hkl p hp
    · rcases List.mem_append.mp hp with hp | hp
      · exact .inr ⟨(ak, av), mem_append_right _ List.mem_cons_self,
          (hmid p (Option.mem_toList.mp hp)).symm⟩
      · exact hkr p hp
  · intro k
    have h2 := find_parts (m := some (ak, av)) haround.below haround.above
      (fun p hp => by cases hp; rfl) k
    rw [ht, find_parts hbelow habove hmid k, Tree.toList]
    rw [Option.toList_some, List.singleton_append] at h2
    rw [h2]
    cases hlt : O.lt k ak with
    | true => rw [if_pos rfl, if_pos rfl, hpl k, hlist1, find_filter_lt hlt]
    | false =>
      rw [if_neg Bool.false_ne_true, if_neg Bool.false_ne_true]
      cases hgt : O.lt ak k with
      | true => rw [if_pos rfl, if_pos rfl, hpr k, hlistr1, find_filter_gt hgt]
      | false =>
        rw [if_neg Bool.false_ne_true, if_neg Bool.false_ne_true, hpick,
          find_congr (O.eq_iff.mpr ⟨hlt, hgt⟩)]

def pickUnion (p q : Option (α × β)) : Option (α × β) := q.or p

/-- The pair of the second tree, its datum merged with that of the first. -/
def pickMerge (merge : α → β → β → β) (p q : Option (α × β)) : Option (α × β) :=
  match p, q with
  | some p, some q => some (q.1, merge q.1 q.2 p.2)
  | p, none => p
  | none, q => q

def pickDifference (p q : Option (α × β)) : Option (α × β) := if q.isSome then none else p

def pickIntersection (p q : Option (α × β)) : Option (α × β) := if p.isSome then q else none

theorem combined_left {t1} (hpick : ∀ p, pick p none = p) (hs1 : Sorted O t1.toList) :
    Combined O t1 (empty : Tree α β) t1 ∧ Picks O pick t1 (empty : Tree α β) t1 :=
  ⟨⟨hs1, fun p hp => .inl ⟨p, hp, rfl⟩⟩, fun _ => (hpick _).symm⟩

theorem combined_right {t2} (hpick : ∀ q, pick none q = q) (hs2 : Sorted O t2.toList) :
    Combined O (empty : Tree α β) t2 t2 ∧ Picks O pick (empty : Tree α β) t2 t2 :=
  ⟨⟨hs2, fun p hp => .inr ⟨p, hp, rfl⟩⟩, fun _ => (hpick _).symm⟩

theorem union_spec (hj : Agree join) {t2} : ∀ t1 : Tree α β, Shape t1 →
    Sorted O t1.toList → Shape t2 → Sorted O t2.toList →
    Gives join (fun j => union O j t1 t2)
      fun t => Combined O t1 t2 t ∧ Picks O pickUnion t1 t2 t := by
  induction t2 with
  | empty => exact fun t1 h1 hs1 _ _ => .of_ok h1 (combined_left (fun _ => rfl) hs1)
  | node ak av l r w ihl ihr =>
    intro t1 h1 hs1 h2 hs2
    cases t1 with
    | empty => exact .of_ok h2 (combined_right (fun _ => Option.or_none) hs2)
    | node k1 v1 l1 r1 w1 =>
      exact combined_of_parts (f := fun j => union O j) (g := fun j => concat3 O j ak av)
        (m := some (ak, av)) rfl (fun p hp => by cases hp; rfl) hj h1 hs1 h2 hs2 ihl ihr
        fun l' r' hl' hr' hs => concat3_spec hj hl' hr' hs

def mergedDatum (merge : α → β → β → β) (ak : α) (av : β) : Option (α × β) → β
  | some node1 => merge ak av node1.2
  | none => av

theorem unionMerge_spec (hj : Agree join) (merge) {t2} :
    ∀ t1 : Tree α β, Shape t1 → Sorted O t1.toList → Shape t2 → Sorted O t2.toList →
    Gives join (fun j => unionMerge O j merge t1 t2)
      fun t => Combined O t1 t2 t ∧ Picks O (pickMerge merge) t1 t2 t := by
  induction t2 with
  | empty =>
    exact fun t1 h1 hs1 _ _ => .of_ok h1 (combined_left (fun p => by cases p <;> rfl) hs1)
  | node ak av l r w ihl ihr =>
    intro t1 h1 hs1 h2 hs2
    cases t1 with
    | empty => exact .of_ok h2 (combined_right (fun q => by cases q <;> rfl) hs2)
    | node k1 v1 l1 r1 w1 =>
      refine combined_of_parts (f := fun j => unionMerge O j merge)
        (g := fun j => concat3 O j ak (mergedDatum merge ak av (find O ak (node k1 v1 l1 r1 w1))))
        (m := some (ak, mergedDatum merge ak av (find O ak (node k1 v1 l1 r1 w1)))) ?_
        (fun p hp => by cases hp; rfl) hj h1 hs1 h2 hs2 ihl ihr fun l' r' hl' hr' hs =>
          concat3_spec hj hl' hr' ?_
      · rw [find_spec hs1]
        cases Lib.SortedMap.find O (node k1 v1 l1 r1 w1).toList ak <;> rfl
      · obtain ⟨ha, hb, haround⟩ := sorted_middle.mp hs
        exact sorted_middle.mpr ⟨ha, hb, haround⟩

theorem sorted_append_of_middle (hs : Sorted O (a ++ (k, v) :: b)) : Sorted O (a ++ b) := by
  obtain ⟨ha, hb, haround⟩ := sorted_middle.mp hs
  exact sorted_append.mpr ⟨ha, hb, fun p hp q hq =>
    O.trans (haround.below p hp) (haround.above q hq)⟩

theorem difference_spec (hj : Agree join) {t2} : ∀ t1 : Tree α β, Shape t1 →
    Sorted O t1.toList → Shape t2 → Sorted O t2.toList →
    Gives join (fun j => difference O j t1 t2)
      fun t => Combined O t1 t2 t ∧ Picks O pickDifference t1 t2 t := by
  induction t2 with
  | empty => exact fun t1 h1 hs1 _ _ => .of_ok h1 (combined_left (fun _ => rfl) hs1)
  | node ak av l r w ihl ihr =>
    intro t1 h1 hs1 h2 hs2
    cases t1 with
    | empty =>
      refine .of_ok h1 ⟨⟨hs1, fun p hp => .inl ⟨p, hp, rfl⟩⟩, fun k => ?_⟩
      exact (ite_self (c := (Lib.SortedMap.find O (node ak av l r w).toList k).isSome = true)
        none).symm
    | node k1 v1 l1 r1 w1 =>
      exact combined_of_parts (f := fun j => difference O j) (g := fun j => concat O j)
        (m := none) rfl (fun p hp => by cases hp) hj h1 hs1 h2 hs2 ihl ihr
        fun l' r' hl' hr' hs => concat_spec hj hl' hr' (sorted_append_of_middle hs)

theorem intersection_spec (hj : Agree join) {t2} : ∀ t1 : Tree α β, Shape t1 →
    Sorted O t1.toList → Shape t2 → Sorted O t2.toList →
    Gives join (fun j => intersection O j t1 t2)
      fun t => Combined O t1 t2 t ∧ Picks O pickIntersection t1 t2 t := by
  induction t2 with
  | empty =>
    refine fun t1 _ _ h2 hs2 => .of_ok h2 ⟨⟨hs2, fun p hp => absurd hp not_mem_nil⟩,
      fun k => ?_⟩
    exact (ite_self (c := (Lib.SortedMap.find O t1.toList k).isSome = true) none).symm
  | node ak av l r w ihl ihr =>
    intro t1 h1 hs1 h2 hs2
    cases t1 with
    | empty => exact .of_ok h1 ⟨⟨hs1, fun p hp => .inl ⟨p, hp, rfl⟩⟩, fun _ => rfl⟩
    | node k1 v1 l1 r1 w1 =>
      refine combined_of_parts (f := fun j => intersection O j)
        (g := fun j l r => if (find O ak (node k1 v1 l1 r1 w1)).isSome then concat3 O j ak av l r
          else concat O j l r)
        (m := if (find O ak (node k1 v1 l1 r1 w1)).isSome then some (ak, av) else none) ?_
        (fun p hp => ?_) hj h1 hs1 h2 hs2 ihl ihr fun l' r' hl' hr' hs => ?_
      · rw [find_spec hs1]
        rfl
      · split at hp
        · cases hp
          rfl
        · cases hp
      · cases hfind : (find O ak (node k1 v1 l1 r1 w1)).isSome with
        | true => exact concat3_spec hj hl' hr' hs
        | false => exact concat_spec hj hl' hr' (sorted_append_of_middle hs)

/-! ## Built trees -/

theorem ordered_of_sorted {lo hi : α → Bool} (hs : Sorted O t.toList)
    (hlo : ∀ p ∈ t.toList, lo p.1 = true) (hhi : ∀ p ∈ t.toList, hi p.1 = true) :
    ordered O lo hi t = true := by
  induction t generalizing lo hi with
  | empty => rfl
  | node k v l r w ihl ihr =>
    obtain ⟨hsl, hsr, haround⟩ := sorted_middle.mp hs
    have hmid : (k, v) ∈ (node k v l r w).toList :=
      mem_append_right _ List.mem_cons_self
    have hleft : ∀ p ∈ l.toList, p ∈ (node k v l r w).toList := fun p hp =>
      List.mem_append_left _ hp
    have hright : ∀ p ∈ r.toList, p ∈ (node k v l r w).toList := fun p hp =>
      mem_append_right _ (List.mem_cons_of_mem _ hp)
    rw [ordered, hlo _ hmid, hhi _ hmid,
      ihl hsl (fun p hp => hlo p (hleft p hp)) haround.below,
      ihr hsr haround.above fun p hp => hhi p (hright p hp)]
    rfl

theorem valid_of_sorted (ht : Shape t) (hs : Sorted O t.toList) : valid O t = true := by
  rw [valid, ht.balanced, ordered_of_sorted hs (fun _ _ => rfl) fun _ _ => rfl]
  rfl

theorem put_sorted (hs : Sorted O a) (hadd : Added O k v a b) : Sorted O b := by
  cases hadd with
  | absent haround =>
    obtain ⟨ha, hb, -⟩ := sorted_append.mp hs
    exact sorted_middle.mpr ⟨ha, hb, haround⟩
  | present =>
    obtain ⟨ha, hb, haround⟩ := sorted_middle.mp hs
    exact sorted_middle.mpr ⟨ha, hb, haround⟩

theorem build_spec (hj : Agree join) {b : Build α β} (hb : b.Defined O) :
    Gives join (fun j => b.eval O j) fun t => Sorted O t.toList := by
  induction b with
  | empty => exact .of_ok shape_empty List.Pairwise.nil
  | add b key datum ih =>
    refine (ih hb).bind fun t ht hs => ?_
    exact (add_spec hj ht hs key datum).mono fun t' _ hadd => put_sorted hs hadd
  | delete b key ih =>
    refine (ih hb).bind fun t ht hs => ?_
    exact (delete_spec hj ht hs key).mono fun t' _ hdel => hdel.1 ▸ hs.filter _
  | deleteMin b ih =>
    obtain ⟨t, hjoin, htJoin, ht, hs⟩ := ih hb.1
    have hne : t ≠ .empty := fun heq => hb.2 (heq ▸ htJoin)
    obtain ⟨p, -, hdel⟩ := delmin_spec hj ht hne
    have hgives : Gives join (fun j => b.eval O j) fun t' => t' = t :=
      ⟨t, hjoin, htJoin, ht, rfl⟩
    refine hgives.bind fun t' _ heq => ?_
    subst heq
    refine hdel.mono fun t'' _ hlist => ?_
    rw [hlist] at hs
    exact (List.pairwise_cons.mp hs).2
  | splitLt b key ih =>
    refine (ih hb).bind fun t ht hs => ?_
    exact (splitLt_spec hj ht hs key).mono fun t' _ hlist => hlist ▸ hs.filter _
  | splitGt b key ih =>
    refine (ih hb).bind fun t ht hs => ?_
    exact (splitGt_spec hj ht hs key).mono fun t' _ hlist => hlist ▸ hs.filter _
  | union b c ihb ihc =>
    refine (ihb hb.1).bind fun t1 h1 hs1 => (ihc hb.2).bind fun t2 h2 hs2 => ?_
    exact (union_spec hj t1 h1 hs1 h2 hs2).mono fun t _ ht => ht.1.1
  | unionMerge b c merge ihb ihc =>
    refine (ihb hb.1).bind fun t1 h1 hs1 => (ihc hb.2).bind fun t2 h2 hs2 => ?_
    exact (unionMerge_spec hj merge t1 h1 hs1 h2 hs2).mono fun t _ ht => ht.1.1
  | intersection b c ihb ihc =>
    refine (ihb hb.1).bind fun t1 h1 hs1 => (ihc hb.2).bind fun t2 h2 hs2 => ?_
    exact (intersection_spec hj t1 h1 hs1 h2 hs2).mono fun t _ ht => ht.1.1
  | difference b c ihb ihc =>
    refine (ihb hb.1).bind fun t1 h1 hs1 => (ihc hb.2).bind fun t2 h2 hs2 => ?_
    exact (difference_spec hj t1 h1 hs1 h2 hs2).mono fun t _ ht => ht.1.1

/-- **Every tree that is built is valid, and no `t-join` on the way returns a tree that is
not balanced.** -/
theorem built_valid (O : KeyOrder α) {b : Build α β} (hb : b.Defined O) :
    ∃ t, b.eval O tJoin = .ok t ∧ b.eval O checkedJoin = .ok t ∧ valid O t = true ∧
      t.Weighted := by
  obtain ⟨t, hchecked, htJoin, ht, hs⟩ := build_spec agree_checkedJoin hb
  exact ⟨t, htJoin, hchecked, valid_of_sorted ht hs, ht.weighted⟩

theorem built_valid_union : (Build.union (.deleteMin (.add (.add .empty 2 20) 1 10))
    (.splitLt (.add .empty 3 30) 5)).Defined natOrder ∧
    ∃ t, (Build.union (.deleteMin (.add (.add .empty 2 20) 1 10))
        (.splitLt (.add .empty 3 30) 5)).eval natOrder tJoin = .ok t ∧
      (Build.union (.deleteMin (.add (.add .empty 2 20) 1 10))
        (.splitLt (.add .empty 3 30) 5)).eval natOrder checkedJoin = .ok t ∧
      valid natOrder t = true ∧ t.Weighted := by
  have hb : (Build.union (.deleteMin (.add (.add .empty 2 20) 1 10))
      (.splitLt (.add .empty 3 30) 5)).Defined natOrder := by
    refine ⟨⟨trivial, fun h => ?_⟩, trivial⟩
    exact node_ne_empty (Except.ok.inj h)
  exact ⟨hb, built_valid natOrder hb⟩

end MitScheme.Runtime.WtTree
