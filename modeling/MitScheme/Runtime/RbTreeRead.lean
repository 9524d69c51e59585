import MitScheme.Runtime.RbTreeDelete

/-! # Red-black trees: reading and copying

The procedures that read a tree give the pairs of its list; `rb-tree/copy` makes a tree of
new nodes with the same pairs. -/

namespace MitScheme.Runtime.RbTree
open Lib.SortedMap

variable {α β : Type} {h h' : Heap α β} {t : TreeId} {S : List NodeId} {ctx : Ctx α β}
  {x y : Tree α β} {d : Dir} {i j : NodeId} {c c' : Color} {k k' : α} {v v' : β}
  {a b e : Tree α β} {n m : Nat} {O : KeyOrder α} {key : α} {l r : Tree α β}

/-! ## Reading a tree -/

theorem Good.lookup (hg : Good O h t S x) (key default) :
    h.lookup O t key default = .ok (((find O x.toList key).map Prod.snd).getD default) := by
  rcases hg.findNode key with ⟨ctx, hfind, hs, hx⟩ | ⟨ctx, i, c, k, v, l, r, hfind, hs, heq, hx⟩
  · simp only [Heap.lookup, hfind, bind, Except.bind]
    rw [← hx, plug_leaf_toList, hs.around.find_none]
    rfl
  · simp only [Heap.lookup, hfind, bind, Except.bind]
    rw [← hx, plug_node_toList, (hs.around_node heq).find_some heq, hs.rep.tree.1]
    rfl

theorem sizeLoop_spec {x} : ∀ {fuel : Nat} {up : Option NodeId},
    Holds h.nodes up x → x.ids.length ≤ fuel →
    h.sizeLoop fuel x.root = .ok x.toList.length := by
  induction x with
  | leaf =>
    intro fuel up _ _
    cases fuel <;> rfl
  | node i c k v l r ihl ihr =>
    rintro fuel up ⟨hi, hl, hr⟩ hfuel
    rw [Tree.ids, List.length_cons, List.length_append] at hfuel
    obtain ⟨fuel, rfl⟩ : ∃ fuel', fuel = fuel' + 1 := ⟨fuel - 1, by omega⟩
    have hleft := ihl hl (show l.ids.length ≤ fuel by omega)
    have hright := ihr hr (show r.ids.length ≤ fuel by omega)
    rw [Tree.root, Heap.sizeLoop, hi]
    simp only [hleft, hright, bind, Except.bind]
    rw [Tree.toList, List.length_append, List.length_cons]
    congr 1
    omega

theorem Good.size (hg : Good O h t S x) : h.size t = .ok x.toList.length := by
  have hlen := hg.rep.length_le hg.bound
  have hroot : h.roots t = x.root := hg.rep.around
  rw [Heap.size, hroot]
  exact sizeLoop_spec hg.rep.tree (by rw [Heap.fuel]; omega)

theorem Tree.length_toList (x : Tree α β) : x.toList.length = x.ids.length := by
  induction x with
  | leaf => rfl
  | node i c k v l r ihl ihr =>
    rw [Tree.toList, Tree.ids, List.length_append, List.length_cons, List.length_cons,
      List.length_append, ihl, ihr]
    rfl

theorem climb_spec {ctx} : ∀ {fuel : Nat} {x : Tree α β} {i : NodeId},
    Rep h t S ctx x → x.root = some i → ctx.length < fuel →
    (h.climb .left fuel i = .ok none ∧ lefts ctx = []) ∨
    ∃ ctx' j c k v l r, h.climb .left fuel i = .ok (some j) ∧
      plug ctx' (.node j c k v l r) = plug ctx x ∧
      lefts ctx = lefts ctx' ++ l.toList ++ [(k, v)] := by
  induction ctx with
  | nil =>
    intro fuel x i hr hroot hfuel
    obtain ⟨fuel, rfl⟩ : ∃ fuel', fuel = fuel' + 1 := ⟨fuel - 1, by omega⟩
    refine .inl ⟨?_, rfl⟩
    rw [Heap.climb, hr.up_root hroot]
    rfl
  | cons f ctx ih =>
    intro fuel x i hr hroot hfuel
    obtain ⟨fuel, rfl⟩ : ∃ fuel', fuel = fuel' + 1 := ⟨fuel - 1, by omega⟩
    have hparent := hr.parent
    rw [Heap.climb, hr.up_root hroot]
    show (if (h.nodes f.i).link .left = some i then h.climb .left fuel f.i
      else .ok (some f.i)) = .ok none ∧ _ ∨ ∃ ctx' j c k v l r,
      (if (h.nodes f.i).link .left = some i then h.climb .left fuel f.i
        else .ok (some f.i)) = .ok (some j) ∧ _
    obtain ⟨d, fi, fc, fk, fv, fsib⟩ := f
    cases d with
    | left =>
      have hlink : (h.nodes fi).link .left = some i := by
        rw [hparent]
        exact hroot
      rw [if_pos hlink]
      rcases ih hr.up (Tree.root_mk ..) (Nat.lt_of_succ_lt_succ hfuel) with
        ⟨hclimb, hlefts⟩ | ⟨ctx', j, c, k, v, l, r, hclimb, hplug, hlefts⟩
      · refine .inl ⟨hclimb, ?_⟩
        rw [lefts, hlefts]
        rfl
      · refine .inr ⟨ctx', j, c, k, v, l, r, hclimb, hplug, ?_⟩
        rw [lefts, hlefts]
        exact List.append_nil _
    | right =>
      have hlink : (h.nodes fi).link .left ≠ some i := by
        rw [hparent]
        exact hr.sib_root_ne hroot
      rw [if_neg hlink]
      refine .inr ⟨ctx, fi, fc, fk, fv, fsib, x, rfl, rfl, ?_⟩
      rw [lefts, List.append_assoc]

theorem Good.prevNode (hg : Good O h t S x) (hx : plug ctx (.node i c k v l r) = x) :
    (h.prevNode i = .ok none ∧ lefts ctx ++ l.toList = []) ∨
    ∃ ctx' j c k v l' r, h.prevNode i = .ok (some j) ∧
      plug ctx' (.node j c k v l' r) = x ∧
      lefts ctx ++ l.toList = (lefts ctx' ++ l'.toList) ++ [(k, v)] := by
  subst hx
  have hr := hg.rep.focus
  have hlen := hr.length_le hg.bound
  have hctxlen := ctx_length_le ctx
  have hlink : (h.nodes i).link .left = l.root := by
    rw [hr.tree.1]
    rfl
  rw [Heap.prevNode, Heap.neighbour, hlink]
  cases l with
  | leaf =>
    have hfuel : ctx.length < h.fuel := by
      rw [Heap.fuel]
      omega
    rw [Tree.toList, List.append_nil]
    exact climb_spec hr rfl hfuel
  | node j cj kj vj ll lr =>
    have hfuel : (Tree.node j cj kj vj ll lr).ids.length ≤ h.fuel := by
      rw [Tree.ids, List.length_cons, List.length_append] at hlen
      rw [Heap.fuel]
      omega
    obtain ⟨fs, j', c', k', v', a, hj, hplug, hfs⟩ :=
      extreme_spec (d := .right) hr.tree.2.1 rfl hfuel
    refine .inr ⟨fs ++ ⟨.left, i, c, k, v, r⟩ :: ctx, j', c', k', v', a, .leaf, ?_, ?_, ?_⟩
    · show (h.extreme .right h.fuel j).map some = _
      rw [hj]
      rfl
    · rw [plug_append, show plug fs (.node j' c' k' v' a .leaf) = _ from hplug]
      rfl
    · rw [← hplug]
      show _ ++ (plug fs (.node j' c' k' v' a .leaf)).toList = _
      rw [plug_node_toList, lefts_append, show rights fs = [] from hfs]
      simp [lefts, Tree.toList]

theorem Good.foldRightLoop {γ : Type} {kons : α → β → γ → γ} (hg : Good O h t S x) :
    ∀ {fuel : Nat} {ctx : Ctx α β} {i : NodeId} {c : Color} {k : α} {v : β} {l r : Tree α β}
      {acc : γ}, plug ctx (.node i c k v l r) = x → (lefts ctx ++ l.toList).length < fuel →
    h.foldRightLoop kons fuel (some i) acc =
      .ok ((lefts ctx ++ l.toList ++ [(k, v)]).foldr (fun p acc => kons p.1 p.2 acc) acc) := by
  intro fuel
  induction fuel with
  | zero => exact fun _ hfuel => absurd hfuel (Nat.not_lt_zero _)
  | succ fuel ih =>
    intro ctx i c k v l r acc hx hfuel
    have hnode := (hx ▸ hg.rep).focus.tree.1
    rcases hg.prevNode hx with ⟨hprev, hnil⟩ | ⟨ctx', j, c', k', v', l', r', hprev, hx', hlist⟩
    · simp only [Heap.foldRightLoop, hprev, bind, Except.bind, hnode, hnil]
      cases fuel <;> rfl
    · simp only [Heap.foldRightLoop, hprev, bind, Except.bind, hnode]
      have hlen : (lefts ctx' ++ l'.toList).length < fuel := by
        rw [hlist, List.length_append] at hfuel
        exact Nat.lt_of_succ_lt_succ hfuel
      rw [ih hx' hlen, hlist]
      simp only [List.foldr_append, List.foldr_cons, List.foldr_nil]

def endPair (d : Dir) (l : List (α × β)) : Option (α × β) :=
  match d with
  | .left => l.head?
  | .right => l.getLast?

def dropEnd (d : Dir) (l : List (α × β)) : List (α × β) :=
  match d with
  | .left => l.tail
  | .right => l.dropLast

theorem endPair_plug (hctx : beside d ctx = []) :
    endPair d (plug ctx (Tree.mk d i c k v .leaf a)).toList = some (k, v) := by
  cases d with
  | left =>
    show (plug ctx (.node i c k v .leaf a)).toList.head? = _
    rw [plug_node_toList, show lefts ctx = [] from hctx]
    rfl
  | right =>
    show (plug ctx (.node i c k v a .leaf)).toList.getLast? = _
    rw [plug_node_toList, show rights ctx = [] from hctx]
    exact List.getLast?_concat

theorem Good.extremeKey (hg : Good O h t S x) (d default) :
    h.extremeKey t d default = .ok (((endPair d x.toList).map Prod.fst).getD default) := by
  rcases hg.extremeNode d with ⟨hnode, rfl⟩ | ⟨ctx, i, c, k, v, a, hnode, rfl, hctx⟩
  · simp only [Heap.extremeKey, hnode, bind, Except.bind]
    cases d <;> rfl
  · simp only [Heap.extremeKey, hnode, bind, Except.bind]
    have hkey : (h.nodes i).key = k := by
      rw [hg.rep.focus.node]
      cases d <;> rfl
    rw [endPair_plug hctx, hkey]
    rfl

theorem Good.toAlist (hg : Good O h t S x) : h.toAlist t = .ok x.toList := by
  rcases hg.extremeNode .right with ⟨hnode, rfl⟩ | ⟨ctx, i, c, k, v, a, hnode, hx, hctx⟩
  · simp only [Heap.toAlist, Heap.foldRight, Heap.maxNode, hnode, bind, Except.bind]
    rfl
  · have hlist : x.toList = lefts ctx ++ a.toList ++ [(k, v)] := by
      rw [← hx]
      show (plug ctx (.node i c k v a .leaf)).toList = _
      rw [plug_node_toList, show rights ctx = [] from hctx]
      rfl
    have hfuel : (lefts ctx ++ a.toList).length < h.fuel := by
      have hlen := hg.rep.length_le hg.bound
      have hids := x.length_toList
      rw [hlist, List.length_append, List.length_singleton] at hids
      rw [Heap.fuel]
      omega
    simp only [Heap.toAlist, Heap.foldRight, Heap.maxNode, hnode, bind, Except.bind]
    rw [hg.foldRightLoop (show plug ctx (.node i c k v a .leaf) = x from hx) hfuel, ← hlist]
    show Except.ok (x.toList.foldr List.cons []) = _
    rw [List.foldr_cons_nil]

/-! ## Copying -/

inductive Alike : Tree α β → Tree α β → Prop
  | leaf : Alike .leaf .leaf
  | node {i j : NodeId} {c : Color} {k : α} {v : β} {l l' r r' : Tree α β} :
    Alike l l' → Alike r r' → Alike (.node i c k v l r) (.node j c k v l' r')

theorem Alike.toList (hxy : Alike x y) : y.toList = x.toList := by
  induction hxy with
  | leaf => rfl
  | node _ _ ihl ihr => rw [Tree.toList, Tree.toList, ihl, ihr]

theorem Alike.rb (hxy : Alike x y) : ∀ {c : Color} {n : Nat}, RB x c n → RB y c n := by
  induction hxy with
  | leaf => exact fun hx => hx
  | node _ _ ihl ihr =>
    intro c n hx
    cases hx with
    | red hl hr => exact .red (ihl hl) (ihr hr)
    | black hl hr => exact .black (ihl hl) (ihr hr)

structure Grows (h h' : Heap α β) : Prop where
  nodes : ∀ i < h.nodeCount, h'.nodes i = h.nodes i
  roots : h'.roots = h.roots
  nodeCount : h.nodeCount ≤ h'.nodeCount
  treeCount : h'.treeCount = h.treeCount

theorem Grows.trans {h''} (h1 : Grows h h') (h2 : Grows h' h'') : Grows h h'' :=
  ⟨fun i hi => (h2.nodes i (Nat.lt_of_lt_of_le hi h1.nodeCount)).trans (h1.nodes i hi),
    h2.roots.trans h1.roots, Nat.le_trans h1.nodeCount h2.nodeCount,
    h2.treeCount.trans h1.treeCount⟩

theorem Grows.modify (hg : Grows h h') (hi : h.nodeCount ≤ i) (f) : Grows h (h'.modify i f) := by
  refine ⟨fun j hj => ?_, hg.roots, hg.nodeCount, hg.treeCount⟩
  rw [modify_of_ne h' (Nat.ne_of_lt (Nat.lt_of_lt_of_le hj hi)), hg.nodes j hj]

theorem Holds.grows {up} (hx : Holds h.nodes up x) (hg : Grows h h')
    (hbound : ∀ i ∈ x.ids, i < h.nodeCount) : Holds h'.nodes up x :=
  hx.frame fun i hi => hg.nodes i (hbound i hi)

/-- What the loop of `rb-tree/copy` does: the copy is made of new nodes. -/
structure Copied (h h' : Heap α β) (up : Option NodeId) (x y : Tree α β) : Prop where
  grows : Grows h h'
  alike : Alike x y
  holds : Holds h'.nodes up y
  distinct : y.ids.Nodup
  new : ∀ i ∈ y.ids, h.nodeCount ≤ i ∧ i < h'.nodeCount

def Heap.copyNode (h : Heap α β) (x : NodeId) (up : Option NodeId) : Heap α β :=
  ((h.makeNode (h.nodes x).key (h.nodes x).datum).setColor h.nodeCount
    ((h.makeNode (h.nodes x).key (h.nodes x).datum).nodes x).color).setUp h.nodeCount up

theorem grows_copyNode (x up) : Grows h (h.copyNode x up) := by
  have hmake : Grows h (h.makeNode (h.nodes x).key (h.nodes x).datum) :=
    ⟨fun i hi => Function.update_of_ne (Nat.ne_of_lt hi) _ _, rfl, Nat.le_succ _, rfl⟩
  have hcolor := hmake.modify (Nat.le_refl _) fun n =>
    { n with color := ((h.makeNode (h.nodes x).key (h.nodes x).datum).nodes x).color }
  exact hcolor.modify (Nat.le_refl _) fun n => { n with up }

theorem copyNode_self {up} (up') (hx : Holds h.nodes up (.node i c k v l r))
    (hi : i < h.nodeCount) : (h.copyNode i up').nodes h.nodeCount = ⟨k, v, up', none, none, c⟩ := by
  have hcolor : ((h.makeNode (h.nodes i).key (h.nodes i).datum).nodes i).color = c := by
    rw [show (h.makeNode _ _).nodes i = h.nodes i from Function.update_of_ne (Nat.ne_of_lt hi) _ _,
      hx.1]
  rw [Heap.copyNode, hcolor, Heap.setUp, modify_self, Heap.setColor, modify_self,
    show (h.makeNode _ _).nodes h.nodeCount = _ from Function.update_self .., hx.1]

theorem copyLoop_some {fuel h1 h2 up left right}
    (hleft : Heap.copyLoop fuel ((h.copyNode i up).nodes i).left (some h.nodeCount)
      (h.copyNode i up) = .ok (left, h1))
    (hright : Heap.copyLoop fuel ((h1.setLink h.nodeCount .left left).nodes i).right
      (some h.nodeCount) (h1.setLink h.nodeCount .left left) = .ok (right, h2)) :
    Heap.copyLoop (fuel + 1) (some i) up h =
      .ok (some h.nodeCount, h2.setLink h.nodeCount .right right) := by
  rw [Heap.copyNode] at hleft
  simp only [Heap.copyLoop, hleft, hright, bind, Except.bind]

theorem copyLoop_spec {x} : ∀ {fuel : Nat} {h : Heap α β} {up : Option NodeId}
    (up' : Option NodeId), Holds h.nodes up x → (∀ i ∈ x.ids, i < h.nodeCount) →
    x.ids.length ≤ fuel →
    ∃ h' y, Heap.copyLoop fuel x.root up' h = .ok (y.root, h') ∧ Copied h h' up' x y := by
  induction x with
  | leaf =>
    intro fuel h up up' _ _ _
    refine ⟨h, .leaf, by cases fuel <;> rfl, ⟨fun _ _ => rfl, rfl, Nat.le_refl _, rfl⟩, .leaf,
      trivial, List.nodup_nil, ?_⟩
    exact fun i hi => absurd hi List.not_mem_nil
  | node i c k v l r ihl ihr =>
    intro fuel h up up' hx hbound hfuel
    rw [Tree.ids, List.length_cons, List.length_append] at hfuel
    obtain ⟨fuel, rfl⟩ : ∃ fuel', fuel = fuel' + 1 := ⟨fuel - 1, by omega⟩
    have hi : i < h.nodeCount := hbound i List.mem_cons_self
    have hbl : ∀ j ∈ l.ids, j < h.nodeCount := fun j hj =>
      hbound j (List.mem_cons_of_mem _ (List.mem_append_left _ hj))
    have hbr : ∀ j ∈ r.ids, j < h.nodeCount := fun j hj =>
      hbound j (List.mem_cons_of_mem _ (List.mem_append_right _ hj))
    have hg0 := grows_copyNode (h := h) i up'
    have hn0 := copyNode_self up' hx hi
    have hc0 : (h.copyNode i up').nodeCount = h.nodeCount + 1 := rfl
    -- the left tree
    have hx0 := hx.grows hg0 hbound
    obtain ⟨h1, l', hl', hcl⟩ := ihl (some h.nodeCount) hx0.2.1
      (fun j hj => Nat.lt_of_lt_of_le (hbl j hj) hg0.nodeCount)
      (show l.ids.length ≤ fuel by omega)
    have hg1 := (hg0.trans hcl.grows).modify (Nat.le_refl _) fun n => n.setLink .left l'.root
    have hn1 : h1.nodes h.nodeCount = ⟨k, v, up', none, none, c⟩ := by
      rw [hcl.grows.nodes _ (by rw [hc0]; exact Nat.lt_succ_self _), hn0]
    -- the right tree
    have hx1 := hx.grows hg1 hbound
    obtain ⟨h2, r', hr', hcr⟩ := ihr (some h.nodeCount) hx1.2.2
      (fun j hj => Nat.lt_of_lt_of_le (hbr j hj) hg1.nodeCount)
      (show r.ids.length ≤ fuel by omega)
    have hnew : h.nodeCount < h1.nodeCount := 
      Nat.lt_of_lt_of_le (Nat.lt_succ_self _) hcl.grows.nodeCount
    have hn2 : h2.nodes h.nodeCount = ⟨k, v, up', l'.root, none, c⟩ := by
      rw [hcr.grows.nodes _ hnew, modify_self, hn1]
      rfl
    rw [show l.root = ((h.copyNode i up').nodes i).left by rw [hx0.1]] at hl'
    have hright : r.root = ((h1.setLink h.nodeCount .left l'.root).nodes i).right := by
      rw [show (h1.setLink h.nodeCount .left l'.root).nodes i = _ from hx1.1]
    rw [hright] at hr'
    refine ⟨h2.setLink h.nodeCount .right r'.root, .node h.nodeCount c k v l' r',
      copyLoop_some hl' hr', (hg1.trans hcr.grows).modify (Nat.le_refl _) _,
      .node hcl.alike hcr.alike, ?_, ?_, ?_⟩
    · have hl1 : ∀ j ∈ l'.ids, j ≠ h.nodeCount ∧ j < h1.nodeCount := fun j hj =>
        ⟨Nat.ne_of_gt (hcl.new j hj).1, (hcl.new j hj).2⟩
      refine ⟨?_, hcl.holds.frame fun j hj => ?_, hcr.holds.frame fun j hj => ?_⟩
      · rw [Heap.setLink, modify_self, hn2]
        rfl
      · rw [Heap.setLink, modify_of_ne _ (hl1 j hj).1, hcr.grows.nodes j (hl1 j hj).2]
        exact modify_of_ne h1 (hl1 j hj).1 _
      · exact modify_of_ne h2 (Nat.ne_of_gt (Nat.lt_of_lt_of_le hnew (hcr.new j hj).1)) _
    · refine List.nodup_cons.mpr ⟨?_, List.nodup_append.mpr ⟨hcl.distinct, hcr.distinct, ?_⟩⟩
      · intro hm
        rcases List.mem_append.mp hm with hm | hm
        · exact Nat.lt_irrefl _ (hcl.new _ hm).1
        · exact Nat.lt_irrefl _ (Nat.lt_of_lt_of_le hnew (hcr.new _ hm).1)
      · intro j hj j' hj'
        exact Nat.ne_of_lt (Nat.lt_of_lt_of_le (hcl.new j hj).2 (hcr.new j' hj').1)
    · intro j hj
      have hle : h1.nodeCount ≤ h2.nodeCount := hcr.grows.nodeCount
      rcases List.mem_cons.mp hj with rfl | hj
      · exact ⟨Nat.le_refl _, Nat.lt_of_lt_of_le hnew hle⟩
      · rcases List.mem_append.mp hj with hj | hj
        · exact ⟨Nat.le_of_succ_le (hcl.new j hj).1, Nat.lt_of_lt_of_le (hcl.new j hj).2 hle⟩
        · exact ⟨Nat.le_trans (Nat.le_of_lt hnew) (hcr.new j hj).1, (hcr.new j hj).2⟩

end MitScheme.Runtime.RbTree
