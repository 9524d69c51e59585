import MitScheme.Runtime.RbTreeShape

/-! # Red-black trees: searching and inserting -/

namespace MitScheme.Runtime.RbTree
open Lib.SortedMap

variable {α β : Type} {h h' : Heap α β} {t : TreeId} {S : List NodeId} {ctx : Ctx α β}
  {x y : Tree α β} {d : Dir} {i j : NodeId} {c c' : Color} {k k' : α} {v v' : β}
  {a b e : Tree α β} {n m : Nat}

/-! ## Insertion -/

theorem Rep.blackenRoot (hr : Rep h t S [] x) (hx : x ≠ .leaf) (hrb : RB x c n) :
    ∃ h' y m, h.blackenRoot t = .ok h' ∧ Rep h' t S [] y ∧ Within S t h h' ∧
      y.toList = x.toList ∧ RB y .black m := by
  cases x with
  | leaf => exact absurd rfl hx
  | node i cx k v l r =>
    have hr' : Rep h t S [] (Tree.mk .left i cx k v l r) := hr
    have hroot : h.roots t = some i := hr.around
    refine ⟨h.setColor i .black, .node i .black k v l r, ?_⟩
    have hrb' : ∃ m, RB (Tree.node i Color.black k v l r) .black m := by
      cases hrb with
      | red hl hr => exact ⟨_, .black hl hr⟩
      | black hl hr => exact ⟨_, .black hl hr⟩
    obtain ⟨m, hm⟩ := hrb'
    refine ⟨m, ?_, hr'.setColor .black, within_setColor hr'.mem_ids t h .black, rfl, hm⟩
    rw [Heap.blackenRoot, hroot]
    rfl

theorem Rep.insertCase3 {u g cu cg ku kg vu vg sibu sibg} (hx : x.root = some i)
    (hr : Rep h t S (⟨d, u, cu, ku, vu, sibu⟩ :: ⟨d, g, cg, kg, vg, sibg⟩ :: ctx) x) :
    ∃ h', h.insertCase3 t i d = .ok h' ∧
      Rep h' t S ctx (Tree.mk d.neg u .black ku vu (Tree.mk d.neg g .red kg vg sibg sibu) x) ∧
      Within S t h h' := by
  have hup : (h.nodes i).up = some u := hr.up_root hx
  have hr1 := hr.up.setColor .black
  have hu1 : ((h.setColor u .black).nodes u).up = some g := by
    rw [hr1.node, ofLinks_up]
    rfl
  have hr2 := hr1.up.setColor .red
  dsimp only at hr1 hr2
  rw [← Tree.mk_neg d g, ← Tree.mk_neg d u] at hr2
  obtain ⟨h3, hh3, hr3, hw3⟩ := hr2.rotate
  refine ⟨h3, ?_, hr3, ?_⟩
  · simp only [Heap.insertCase3, hup, Heap.deref, hu1, bind, Except.bind]
    exact hh3
  · refine (within_setColor hr.up.mem_ids t h .black).trans ?_
    exact (within_setColor hr1.up.mem_ids t _ .red).trans hw3

theorem Rep.insertCase2 {f g} (hx : RB (Tree.mk d i .red k v a b) .red n)
    (hr : Rep h t S (f :: g :: ctx) (Tree.mk d i .red k v a b)) (hf : f.c = .red)
    (hsibf : RB f.sib .black n) (hsibg : RB g.sib .black n) :
    ∃ h' y, h.insertCase2 t i f.i g.d = .ok h' ∧ Rep h' t S ctx y ∧ Within S t h h' ∧
      y.toList = (g.fill (f.fill (Tree.mk d i .red k v a b))).toList ∧ RB y .black (n + 1) := by
  obtain ⟨-, ha, hb⟩ := hx.red_inv
  have hroot : (Tree.mk d i .red k v a b).root = some i := Tree.root_mk ..
  by_cases hd : f.d = g.d
  · -- the node is on the same side of its parent
    have hlink : (h.nodes f.i).link g.d.neg ≠ some i := by
      rw [hr.parent, hd, ofLinks_link_neg]
      exact hr.sib_root_ne hroot
    obtain ⟨fd, fi, fc, fk, fv, fsib⟩ := f
    obtain ⟨gd, gi, gc, gk, gv, gsib⟩ := g
    dsimp only at hd hf hlink hsibf hsibg ⊢
    subst hd hf
    obtain ⟨h', hh', hr', hw'⟩ := hr.insertCase3 hroot
    refine ⟨h', _, ?_, hr', hw', ?_, rb_black (rb_red hsibg hsibf) hx⟩
    · rw [Heap.insertCase2, if_neg hlink]
      exact hh'
    · rw [rotate_toList, Frame.fill, Frame.fill, Tree.mk_neg]
      exact mk_toList_congr (by rw [Tree.mk_neg]; exact color_toList ..) rfl
  · have hneg : f.d = g.d.neg := by
      cases hfd : f.d <;> cases hgd : g.d <;> simp_all [Dir.neg]
    have hlink : (h.nodes f.i).link g.d.neg = some i := by
      rw [hr.parent, hneg, ofLinks_link, hroot]
    obtain ⟨fd, fi, fc, fk, fv, fsib⟩ := f
    obtain ⟨gd, gi, gc, gk, gv, gsib⟩ := g
    dsimp only at hneg hf hlink hsibf hsibg ⊢
    subst hneg hf
    -- the node seen in the direction of the rotation
    obtain ⟨a', b', hab⟩ : ∃ a' b', Tree.mk d i .red k v a b = Tree.mk gd i .red k v a' b' := by
      cases d <;> exact exists_mk ..
    rw [hab] at hr hx ⊢
    obtain ⟨-, ha', hb'⟩ := hx.red_inv
    have hr1 := hr.up
    rw [Frame.fill, Tree.mk_neg] at hr1
    obtain ⟨h1, hh1, hr1', hw1⟩ := hr1.rotate
    obtain ⟨h2, hh2, hr2, hw2⟩ := hr1'.down_mk.insertCase3 (Tree.root_mk ..)
    refine ⟨h2, _, ?_, hr2, hw1.trans hw2, ?_, rb_black (rb_red hsibg hb') (rb_red hsibf ha')⟩
    · rw [Heap.insertCase2, if_pos hlink]
      simp only [hh1, bind, Except.bind]
      exact hh2
    · rw [rotate_toList, Frame.fill, Frame.fill, Tree.mk_neg, Tree.mk_neg, Tree.mk_neg]
      refine mk_toList_congr ?_ rfl
      rw [← rotate_toList]
      exact mk_toList_congr (color_toList ..) rfl

theorem insertFixupLoop_spec : ∀ {fuel : Nat} {h : Heap α β} {ctx : Ctx α β} {d : Dir}
    {i : NodeId} {k : α} {v : β} {a b : Tree α β} {n : Nat},
    Rep h t S ctx (Tree.mk d i .red k v a b) → RB (Tree.mk d i .red k v a b) .red n →
    CtxOk ctx .black n → ctx.length < fuel →
    ∃ h' y c m, Heap.insertFixupLoop t fuel i h = .ok h' ∧ Rep h' t S [] y ∧ Within S t h h' ∧
      y.toList = (plug ctx (Tree.mk d i .red k v a b)).toList ∧ y ≠ .leaf ∧ RB y c m := by
  intro fuel
  induction fuel with
  | zero => exact fun _ _ _ hfuel => absurd hfuel (Nat.not_lt_zero _)
  | succ fuel ih =>
    intro h ctx d i k v a b n hr hrb hctx hfuel
    have hup : (h.nodes i).up = ctxUp ctx := by rw [hr.node, ofLinks_up]
    rw [Heap.insertFixupLoop, hup]
    cases hctx with
    | nil =>
      exact ⟨h, _, _, _, rfl, hr, Within.refl S t h, rfl, Tree.mk_ne_leaf, hrb⟩
    | @black f ctx _ c' _ hf hsib hctx =>
      have hcolor : (h.nodes f.i).color ≠ .red := by
        rw [hr.parent, ofLinks_color, hf]
        decide
      obtain ⟨m, hm⟩ := plug_rb hrb (CtxOk.black hf hsib hctx)
      exact ⟨h, _, _, m, if_neg hcolor, hr.toRoot, Within.refl S t h, rfl,
        plug_ne_leaf Tree.mk_ne_leaf, hm⟩
    | @red f ctx _ hf hsib hctx =>
      have hcolor : (h.nodes f.i).color = .red := by rw [hr.parent, ofLinks_color, hf]
      obtain ⟨g, ctx, hgc, c', hg, hgsib, hctx'⟩ : ∃ g ctx', ctx = g :: ctx' ∧ ∃ c', g.c = .black ∧
          RB g.sib c' n ∧ CtxOk ctx' .black (n + 1) := by
        cases hctx with
        | @black g ctx _ c' _ hg hgsib hctx => exact ⟨g, ctx, rfl, c', hg, hgsib, hctx⟩
      subst hgc
      have hupu : (h.nodes f.i).up = some g.i := by
        rw [hr.parent, ofLinks_up]
        rfl
      have hside : bToD (decide ((h.nodes g.i).left = some f.i)) = g.d :=
        hr.up.side (Tree.root_mk ..)
      have hlink : (h.nodes g.i).link g.d.neg = g.sib.root := by
        rw [hr.up.parent, ofLinks_link_neg]
      show ∃ h' y c m, (if (h.nodes f.i).color = .red then _ else _) = _ ∧ _
      rw [if_pos hcolor, hupu]
      dsimp only
      rw [hside, hlink]
      have hcase2 : RB g.sib .black n → ∃ h' y c m, h.insertCase2 t i f.i g.d = .ok h' ∧
          Rep h' t S [] y ∧ Within S t h h' ∧
          y.toList = (plug (f :: g :: ctx) (Tree.mk d i .red k v a b)).toList ∧ y ≠ .leaf ∧
          RB y c m := by
        intro hblack
        obtain ⟨h', y, hh', hr', hw', hlist, hy⟩ := hr.insertCase2 hrb hf hsib hblack
        obtain ⟨m, hm⟩ := plug_rb hy hctx'
        refine ⟨h', plug ctx y, _, m, hh', hr'.toRoot, hw', plug_toList_congr hlist,
          plug_ne_leaf ?_, hm⟩
        cases hy with
        | black => exact Tree.mk_ne_leaf (d := .left)
      cases hs : g.sib with
      | leaf =>
        rw [hs] at hgsib
        cases hgsib
        exact hcase2 (hs ▸ .leaf)
      | node j cj kj vj l r =>
        have hcj : (h.nodes j).color = cj := by
          have hsibholds := hr.up.around.2.1
          rw [hs] at hsibholds
          rw [hsibholds.1]
        rw [hs] at hgsib
        by_cases hred : cj = .red
        · -- case 1: the red node moves up two levels
          subst hred
          show ∃ h' y c m, (if (h.nodes j).color = .red then _ else _) = _ ∧ _
          rw [if_pos hcj]
          obtain ⟨-, hl, hr'⟩ := hgsib.red_inv (d := .left)
          have hr1 := hr.up.setColor .black
          have hr2 := hr1.setSibColor .black (d := .left) hs
          have hr3 := hr2.up.setColor .red
          dsimp only at hr3
          have hrb3 : RB (Tree.mk g.d g.i .red g.k g.v
              (Tree.mk f.d f.i .black f.k f.v (Tree.mk d i .red k v a b) f.sib)
              (Tree.mk .left j .black kj vj l r)) .red (n + 1) :=
            rb_red (rb_black hrb hsib) (rb_black hl hr')
          obtain ⟨h', y, c, m, hh', hrep, hw, hlist, hy, hm⟩ := ih hr3 hrb3 hctx' (by
            simp only [List.length_cons] at hfuel
            omega)
          refine ⟨h', y, c, m, hh', hrep, ?_, ?_, hy, hm⟩
          · have hj : j ∈ S := (hr2.ids.mem_iff.mp (by
              rw [ctxIds, List.flatMap_cons]
              refine List.mem_append_left _ (List.mem_append_left _ (List.mem_cons_of_mem _ ?_))
              exact List.mem_cons_self))
            refine (within_setColor hr.up.mem_ids t h .black).trans ?_
            refine (within_setColor hj t _ .black).trans ?_
            exact (within_setColor hr2.up.mem_ids t _ .red).trans hw
          · rw [hlist]
            refine plug_toList_congr ?_
            rw [Frame.fill, hs]
            exact mk_toList_congr (color_toList ..) rfl
        · show ∃ h' y c m, (if (h.nodes j).color = .red then _ else _) = _ ∧ _
          rw [if_neg (hcj.symm ▸ hred)]
          refine hcase2 ?_
          rw [hs]
          cases hgsib with
          | red => exact absurd rfl hred
          | black hl hr => exact .black hl hr

theorem insertFixup_spec (hr : Rep h t S ctx (Tree.mk d i .red k v a b))
    (hrb : RB (Tree.mk d i .red k v a b) .red n) (hctx : CtxOk ctx .black n)
    (hfuel : ctx.length < h.fuel) :
    ∃ h' y m, h.insertFixup t i = .ok h' ∧ Rep h' t S [] y ∧ Within S t h h' ∧
      y.toList = (plug ctx (Tree.mk d i .red k v a b)).toList ∧ RB y .black m := by
  obtain ⟨h1, y1, c, m, hh1, hr1, hw1, hlist1, hy1, hm⟩ :=
    insertFixupLoop_spec hr hrb hctx hfuel
  obtain ⟨h2, y2, m2, hh2, hr2, hw2, hlist2, hm2⟩ := hr1.blackenRoot hy1 hm
  refine ⟨h2, y2, m2, ?_, hr2, hw1.trans hw2, hlist2.trans hlist1, hm2⟩
  simp only [Heap.insertFixup, hh1, bind, Except.bind]
  exact hh2

/-! ## Searching -/

theorem RB.descend (hx : RB (Tree.mk d i c k v a b) c' n) (hctx : CtxOk ctx c' n) :
    ∃ ca m, RB a ca m ∧ CtxOk (⟨d, i, c, k, v, b⟩ :: ctx) ca m := by
  have hc : c = c' := by
    have hcolor := hx.color_eq
    rwa [Tree.color_mk] at hcolor
  subst hc
  cases c with
  | none => cases d <;> cases hx
  | red =>
    obtain ⟨-, ha, hb⟩ := hx.red_inv
    exact ⟨_, _, ha, .red rfl hb hctx⟩
  | black =>
    obtain ⟨-, m, ca, cb, rfl, ha, hb⟩ := hx.black_inv
    exact ⟨_, _, ha, .black rfl hb hctx⟩

/-- The focus of a search: a part of a sorted red-black tree, around which the key is. -/
structure Search (O : KeyOrder α) (h : Heap α β) (t : TreeId) (S : List NodeId) (key : α)
    (ctx : Ctx α β) (x : Tree α β) : Prop where
  rep : Rep h t S ctx x
  rb : ∃ c n, RB x c n ∧ CtxOk ctx c n
  sorted : Sorted O (plug ctx x).toList
  around : Around O key (lefts ctx) (rights ctx)

variable {O : KeyOrder α} {key : α} {datum : β} {l r : Tree α β}

theorem Search.left (hs : Search O h t S key ctx (.node i c k v l r))
    (hlt : O.lt key k = true) : Search O h t S key (⟨.left, i, c, k, v, r⟩ :: ctx) l := by
  obtain ⟨c', n, hrb, hctx⟩ := hs.rb
  obtain ⟨ca, m, hl, hctx'⟩ := RB.descend (d := .left) hrb hctx
  refine ⟨Rep.down_mk (d := .left) hs.rep, ⟨ca, m, hl, hctx'⟩, hs.sorted, ?_, ?_⟩
  · rw [lefts]
    intro p hp
    rcases List.mem_append.mp hp with hp | hp
    · exact hs.around.below p hp
    · exact absurd hp List.not_mem_nil
  · have hsorted := hs.sorted
    rw [plug_toList, Tree.toList, List.append_assoc, List.append_assoc] at hsorted
    have htail := (sorted_append.mp (sorted_append.mp hsorted).2.1).2.1
    rw [List.cons_append] at htail
    have hk := (List.pairwise_cons.mp htail).1
    rw [rights]
    intro p hp
    rcases List.mem_append.mp hp with hp | hp
    · rcases List.mem_cons.mp hp with rfl | hp
      · exact hlt
      · exact O.trans hlt (hk p (List.mem_append_left _ hp))
    · exact hs.around.above p hp

theorem Search.right (hs : Search O h t S key ctx (.node i c k v l r))
    (hgt : O.lt k key = true) : Search O h t S key (⟨.right, i, c, k, v, l⟩ :: ctx) r := by
  obtain ⟨c', n, hrb, hctx⟩ := hs.rb
  obtain ⟨ca, m, hr, hctx'⟩ := RB.descend (d := .right) hrb hctx
  refine ⟨Rep.down_mk (d := .right) hs.rep, ⟨ca, m, hr, hctx'⟩, hs.sorted, ?_, ?_⟩
  · have hsorted := hs.sorted
    rw [plug_toList, Tree.toList, ← List.append_assoc, List.append_assoc] at hsorted
    have hk := (sorted_middle.mp hsorted).2.2.below
    rw [lefts]
    intro p hp
    rcases List.mem_append.mp hp with hp | hp
    · exact hs.around.below p hp
    · rcases List.mem_append.mp hp with hp | hp
      · exact O.trans (hk p (List.mem_append_right _ hp)) hgt
      · rw [List.mem_singleton.mp hp]
        exact hgt
  · rw [rights]
    exact hs.around.above

theorem plug_node_toList : (plug ctx (.node i c k v l r)).toList =
    (lefts ctx ++ l.toList) ++ (k, v) :: (r.toList ++ rights ctx) := by
  rw [plug_toList, Tree.toList]
  simp

theorem plug_leaf_toList : (plug ctx (.leaf : Tree α β)).toList = lefts ctx ++ rights ctx := by
  rw [plug_toList, Tree.toList, List.append_nil]

theorem Search.around_node (hs : Search O h t S key ctx (.node i c k v l r))
    (heq : O.eq key k = true) :
    Around O key (lefts ctx ++ l.toList) (r.toList ++ rights ctx) := by
  have hsorted := hs.sorted
  rw [plug_node_toList] at hsorted
  exact hsorted.around heq

theorem findLoop_spec {x} : ∀ {fuel : Nat} {ctx : Ctx α β}, Search O h t S key ctx x →
    x.ids.length ≤ fuel →
    (∃ ctx', Heap.findLoop O key h fuel x.root = .ok none ∧ Search O h t S key ctx' .leaf ∧
      plug ctx' .leaf = plug ctx x) ∨
    ∃ ctx' i c k v l r, Heap.findLoop O key h fuel x.root = .ok (some i) ∧
      Search O h t S key ctx' (.node i c k v l r) ∧ O.eq key k = true ∧
      plug ctx' (.node i c k v l r) = plug ctx x := by
  induction x with
  | leaf =>
    intro fuel ctx hs _
    exact .inl ⟨ctx, by cases fuel <;> rfl, hs, rfl⟩
  | node i c k v l r ihl ihr =>
    intro fuel ctx hs hfuel
    cases fuel with
    | zero => exact absurd hfuel (Nat.not_succ_le_zero _)
    | succ fuel =>
      have hlen : l.ids.length + r.ids.length ≤ fuel := by
        rw [Tree.ids, List.length_cons, List.length_append] at hfuel
        exact Nat.le_of_succ_le_succ hfuel
      have hnode : h.nodes i = ⟨k, v, ctxUp ctx, l.root, r.root, c⟩ := hs.rep.tree.1
      rw [Tree.root, Heap.findLoop, hnode]
      dsimp only
      cases heq : O.eq key k with
      | true => exact .inr ⟨ctx, i, c, k, v, l, r, rfl, hs, heq, rfl⟩
      | false =>
        cases hlt : O.lt key k with
        | true => exact ihl (hs.left hlt) (Nat.le_trans (Nat.le_add_right _ _) hlen)
        | false =>
          exact ihr (hs.right (O.lt_of_not heq hlt)) (Nat.le_trans (Nat.le_add_left _ _) hlen)

/-! ## A tree of the heap -/

/-- The heap holds a sorted red-black tree with a black root. -/
structure Good (O : KeyOrder α) (h : Heap α β) (t : TreeId) (S : List NodeId) (x : Tree α β) :
    Prop where
  rep : Rep h t S [] x
  rb : ∃ n, RB x .black n
  sorted : Sorted O x.toList
  bound : ∀ i ∈ S, i < h.nodeCount

theorem Good.search (hg : Good O h t S x) (key) : Search O h t S key [] x := by
  obtain ⟨n, hn⟩ := hg.rb
  refine ⟨hg.rep, ⟨.black, n, hn, .nil⟩, hg.sorted, ?_, ?_⟩
  · exact fun _ hp => absurd hp List.not_mem_nil
  · exact fun _ hp => absurd hp List.not_mem_nil

theorem nodup_length_le {l : List Nat} (hnodup : l.Nodup) (hlt : ∀ i ∈ l, i < n) :
    l.length ≤ n := by
  have hsub : l ⊆ List.range n := fun i hi => List.mem_range.mpr (hlt i hi)
  have hle := (hnodup.subperm hsub).length_le
  rwa [List.length_range] at hle

theorem Rep.length_le (hr : Rep h t S ctx x) (hbound : ∀ i ∈ S, i < h.nodeCount) :
    (ctxIds ctx).length + x.ids.length ≤ h.nodeCount := by
  rw [← List.length_append, hr.ids.length_eq]
  exact nodup_length_le hr.distinct hbound

theorem ctx_length_le (ctx : Ctx α β) : ctx.length ≤ (ctxIds ctx).length := by
  induction ctx with
  | nil => exact Nat.le_refl 0
  | cons f ctx ih =>
    have hcons : (ctxIds (f :: ctx)).length = f.ids.length + (ctxIds ctx).length := by
      rw [ctxIds, List.flatMap_cons, List.length_append]
      rfl
    have hf : 1 ≤ f.ids.length := by
      rw [Frame.ids, List.length_cons]
      exact Nat.le_add_left 1 _
    rw [hcons, List.length_cons]
    omega

theorem Good.findNode (hg : Good O h t S x) (key) :
    (∃ ctx, h.findNode O t key = .ok none ∧ Search O h t S key ctx .leaf ∧
      plug ctx .leaf = x) ∨
    ∃ ctx i c k v l r, h.findNode O t key = .ok (some i) ∧
      Search O h t S key ctx (.node i c k v l r) ∧ O.eq key k = true ∧
      plug ctx (.node i c k v l r) = x := by
  have hlen := hg.rep.length_le hg.bound
  have hroot : h.roots t = x.root := hg.rep.around
  rw [Heap.findNode, hroot]
  exact findLoop_spec (hg.search key) (by rw [Heap.fuel]; omega)

/-- An operation on the tree `t`: other nodes and other trees stay, and the nodes it has
after it are old ones of its own or new ones. -/
structure Op (t : TreeId) (S S' : List NodeId) (h h' : Heap α β) : Prop where
  nodes : ∀ i < h.nodeCount, i ∉ S → h'.nodes i = h.nodes i
  roots : ∀ t', t' ≠ t → h'.roots t' = h.roots t'
  nodeCount : h.nodeCount ≤ h'.nodeCount
  treeCount : h'.treeCount = h.treeCount
  ids : ∀ i ∈ S', i ∈ S ∨ h.nodeCount ≤ i

theorem Within.op (hw : Within S t h h') {S'} (hids : ∀ i ∈ S', i ∈ S) : Op t S S' h h' :=
  ⟨fun i _ hi => hw.nodes i hi, hw.roots, Nat.le_of_eq hw.nodeCount.symm, hw.treeCount,
    fun i hi => .inl (hids i hi)⟩

theorem Rep.setPair {f : Node α β → Node α β} (hr : Rep h t S ctx (.node i c k v l r))
    (hf : f (h.nodes i) = { h.nodes i with key := k', datum := v' }) :
    Rep (h.modify i f) t S ctx (.node i c k' v' l r) := by
  obtain ⟨hi, hl, hr'⟩ := hr.tree
  have hnodup := (List.nodup_append.mp hr.nodup).2.1
  obtain ⟨hnot, -⟩ := List.nodup_cons.mp hnodup
  refine hr.change rfl rfl ?_ ⟨?_, hl.modify ?_ _, hr'.modify ?_ _⟩ rfl
  · exact fun j hj => modify_of_ne h (fun hji : j = i => hj (hji ▸ List.mem_cons_self)) _
  · rw [modify_self, hf, hi]
  · exact fun hm => hnot (List.mem_append_left _ hm)
  · exact fun hm => hnot (List.mem_append_right _ hm)

theorem RB.setPair (hx : RB (.node i c k v l r) c' n) (k' v') : RB (.node i c k' v' l r) c' n := by
  cases hx with
  | red hl hr => exact .red hl hr
  | black hl hr => exact .black hl hr

theorem Search.setDatum (hs : Search O h t S key ctx (.node i c k v l r))
    (heq : O.eq key k = true) (hbound : ∀ i ∈ S, i < h.nodeCount) (f)
    (hf : f (h.nodes i) = { h.nodes i with datum := v' }) :
    Good O (h.modify i f) t S (plug ctx (.node i c k v' l r)) ∧
      (plug ctx (.node i c k v' l r)).toList =
        put O (plug ctx (.node i c k v l r)).toList key v' ∧
      Op t S S h (h.modify i f) := by
  obtain ⟨c', n, hrb, hctx⟩ := hs.rb
  obtain ⟨m, hm⟩ := plug_rb (hrb.setPair k v') hctx
  have hsorted := hs.sorted
  have hi : i ∈ S := hs.rep.ids.mem_iff.mp (List.mem_append_right _ List.mem_cons_self)
  have hkey : k = (h.nodes i).key := by rw [hs.rep.tree.1]
  have hf' : f (h.nodes i) = { h.nodes i with key := k, datum := v' } := by rw [hf, hkey]
  refine ⟨⟨(hs.rep.setPair hf').toRoot, ⟨m, hm⟩, ?_, hbound⟩, ?_,
    (within_modify hi t h _).op fun _ hj => hj⟩
  · rw [plug_node_toList] at hsorted ⊢
    obtain ⟨ha, hb, hab⟩ := sorted_middle.mp hsorted
    exact sorted_middle.mpr ⟨ha, hb, hab⟩
  · rw [plug_node_toList, plug_node_toList, (hs.around_node heq).put_present heq]

theorem Rep.newNode (hr : Rep h t S ctx (.leaf : Tree α β)) (hbound : ∀ i ∈ S, i < h.nodeCount)
    (key datum) {d} (hd : ∀ f ∈ ctx.head?, f.d = d) :
    Rep ((((h.makeNode key datum).setUp h.nodeCount (ctxUp ctx)).linkChild t (ctxUp ctx) d
        h.nodeCount).setColor h.nodeCount .red) t (h.nodeCount :: S) ctx
      (.node h.nodeCount .red key datum .leaf .leaf) := by
  have hfresh : h.nodeCount ∉ ctxIds ctx := fun hm =>
    Nat.lt_irrefl _ (hbound _ (hr.ids.mem_iff.mp (List.mem_append_left _ hm)))
  have hsame : ∀ j ∈ ctxIds ctx, (((h.makeNode key datum).setUp h.nodeCount (ctxUp ctx))).nodes j =
      h.nodes j := by
    intro j hj
    have hne : j ≠ h.nodeCount := fun heq => hfresh (heq ▸ hj)
    rw [Heap.setUp, modify_of_ne _ hne]
    exact Function.update_of_ne hne _ _
  have hz : ((h.makeNode key datum).setUp h.nodeCount (ctxUp ctx)).nodes h.nodeCount =
      ⟨key, datum, ctxUp ctx, none, none, .none⟩ := by
    rw [Heap.setUp, modify_self]
    show { Function.update h.nodes h.nodeCount _ h.nodeCount with up := ctxUp ctx } = _
    rw [Function.update_self]
  have hctx := hr.around.frame hsame
  generalize hh1 : (h.makeNode key datum).setUp h.nodeCount (ctxUp ctx) = h1 at *
  have hroots : h1.roots = h.roots := by rw [← hh1]; rfl
  have hids : (ctxIds ctx ++ (Tree.node h.nodeCount .red key datum .leaf .leaf).ids).Perm
      (h.nodeCount :: S) := by
    have hperm := hr.ids
    rw [Tree.ids, List.append_nil] at hperm
    exact List.perm_append_comm.trans (List.Perm.cons _ hperm)
  have hdistinct : (h.nodeCount :: S).Nodup :=
    List.nodup_cons.mpr ⟨fun hm => Nat.lt_irrefl _ (hbound _ hm), hr.distinct⟩
  cases ctx with
  | nil =>
    refine ⟨?_, ⟨?_, trivial, trivial⟩, hids, hdistinct⟩
    · show Function.update h1.roots t (some h.nodeCount) t = _
      rw [Function.update_self]
      rfl
    · show ((h1.setRoot t (some h.nodeCount)).setColor h.nodeCount .red).nodes h.nodeCount = _
      rw [Heap.setColor, modify_self]
      show { h1.nodes h.nodeCount with color := Color.red } = _
      rw [hz]
      rfl
  | cons f ctx =>
    obtain ⟨hf, hsib, hctx⟩ := hctx
    have hfd : f.d = d := hd f rfl
    have hids' : ctxIds (f :: ctx) = f.i :: (f.sib.ids ++ ctxIds ctx) := by
      rw [ctxIds, List.flatMap_cons]
      rfl
    have hnodup := (List.nodup_append.mp hr.nodup).1
    rw [hids'] at hfresh hnodup
    obtain ⟨hfnot, -⟩ := List.nodup_cons.mp hnodup
    have hfz : f.i ≠ h.nodeCount := fun heq => hfresh (heq ▸ List.mem_cons_self)
    have hctx' : HoldsCtx ((h1.setLink f.i d (some h.nodeCount)).nodes) (h1.roots t) (f :: ctx)
        (some h.nodeCount) := by
      refine ⟨?_, hsib.modify (fun hm => hfnot (List.mem_append_left _ hm)) _, ?_⟩
      · rw [Heap.setLink, modify_self, hf, ← hfd, ofLinks_setLink]
      · rw [hroots]
        exact hctx.modify (fun hm => hfnot (List.mem_append_right _ hm)) _
    refine ⟨?_, ⟨?_, trivial, trivial⟩, hids, hdistinct⟩
    · refine HoldsCtx.modify (h := h1.setLink f.i d (some h.nodeCount)) hctx' ?_ _
      rw [hids']
      exact hfresh
    · show ((h1.setLink f.i d (some h.nodeCount)).setColor h.nodeCount .red).nodes h.nodeCount = _
      rw [Heap.setColor, modify_self, Heap.setLink, modify_of_ne _ hfz.symm, hz]
      rfl

theorem Search.insertNode (hs : Search O h t S key ctx .leaf) (datum)
    (hbound : ∀ i ∈ S, i < h.nodeCount) {d} (hd : ∀ f ∈ ctx.head?, f.d = d) :
    ∃ h' y, h.insertNode t key datum (ctxUp ctx) d = .ok h' ∧
      Good O h' t (h.nodeCount :: S) y ∧
      y.toList = put O (plug ctx .leaf).toList key datum ∧ Op t S (h.nodeCount :: S) h h' := by
  obtain ⟨c, n, hrb, hctx⟩ := hs.rb
  cases hrb
  have hrep := hs.rep.newNode hbound key datum hd
  have hlen := hs.rep.length_le hbound
  have hctxlen := ctx_length_le ctx
  generalize hh1 : (((h.makeNode key datum).setUp h.nodeCount (ctxUp ctx)).linkChild t (ctxUp ctx) d
    h.nodeCount).setColor h.nodeCount .red = h1 at hrep
  have hcount : h1.nodeCount = h.nodeCount + 1 := by
    rw [← hh1]
    cases ctx <;> rfl
  obtain ⟨h', y, m, hh', hr', hw', hlist, hm⟩ := insertFixup_spec (d := .left) hrep
    (rb_red .leaf .leaf) hctx (by rw [Heap.fuel, hcount]; omega)
  have hput : y.toList = put O (plug ctx .leaf).toList key datum := by
    rw [hlist, plug_leaf_toList, hs.around.put_absent]
    show (plug ctx (.node h.nodeCount .red key datum .leaf .leaf)).toList = _
    rw [plug_node_toList]
    simp [Tree.toList]
  refine ⟨h', y, ?_, ⟨hr', ⟨m, hm⟩, ?_, ?_⟩, hput, ?_⟩
  · rw [← hh']
    show (Heap.setColor _ _ _).insertFixup t h.nodeCount = _
    rw [hh1]
  · rw [hput, plug_leaf_toList, hs.around.put_absent]
    have hsorted := hs.sorted
    rw [plug_leaf_toList] at hsorted
    obtain ⟨ha, hb, -⟩ := sorted_append.mp hsorted
    exact sorted_middle.mpr ⟨ha, hb, hs.around⟩
  · intro i hi
    rw [hw'.nodeCount, hcount]
    rcases List.mem_cons.mp hi with rfl | hi
    · exact Nat.lt_succ_self _
    · exact Nat.lt_succ_of_lt (hbound i hi)
  · refine ⟨?_, ?_, ?_, ?_, ?_⟩
    · intro i hi hiS
      have hne : i ≠ h.nodeCount := Nat.ne_of_lt hi
      have hctxi : i ∉ ctxIds ctx := fun hm =>
        hiS (hs.rep.ids.mem_iff.mp (List.mem_append_left _ hm))
      rw [hw'.nodes i fun hm => (List.mem_cons.mp hm).elim hne hiS, ← hh1, Heap.setColor,
        modify_of_ne _ hne]
      have hlinked : ∀ h0 : Heap α β, (h0.linkChild t (ctxUp ctx) d h.nodeCount).nodes i =
          h0.nodes i := by
        intro h0
        cases ctx with
        | nil => rfl
        | cons f ctx =>
          have hif : i ≠ f.i := by
            intro heq
            rw [ctxIds, List.flatMap_cons] at hctxi
            exact hctxi (heq ▸ List.mem_cons_self)
          exact modify_of_ne h0 hif fun n => n.setLink d (some h.nodeCount)
      rw [hlinked, Heap.setUp, modify_of_ne _ hne]
      exact Function.update_of_ne hne _ _
    · intro t' ht'
      rw [hw'.roots t' ht', ← hh1]
      cases ctx with
      | nil => exact Function.update_of_ne ht' _ _
      | cons f ctx => rfl
    · rw [hw'.nodeCount, hcount]
      exact Nat.le_succ _
    · rw [hw'.treeCount, ← hh1]
      cases ctx <;> rfl
    · intro i hi
      rcases List.mem_cons.mp hi with rfl | hi
      · exact .inr (Nat.le_refl _)
      · exact .inl hi

theorem insertLoop_spec {x} : ∀ {fuel : Nat} {ctx : Ctx α β} {d : Dir},
    Search O h t S key ctx x → (∀ i ∈ S, i < h.nodeCount) → x.ids.length ≤ fuel →
    (∀ f ∈ ctx.head?, f.d = d) →
    ∃ h' S' y, Heap.insertLoop O t key datum fuel x.root (ctxUp ctx) d h = .ok h' ∧
      Good O h' t S' y ∧ y.toList = put O (plug ctx x).toList key datum ∧ Op t S S' h h' := by
  induction x with
  | leaf =>
    intro fuel ctx d hs hbound _ hd
    obtain ⟨h', y, hh', hg, hlist, hop⟩ := hs.insertNode datum hbound hd
    refine ⟨h', _, y, ?_, hg, hlist, hop⟩
    rw [← hh']
    cases fuel <;> rfl
  | node i c k v l r ihl ihr =>
    intro fuel ctx d hs hbound hfuel _
    cases fuel with
    | zero => exact absurd hfuel (Nat.not_succ_le_zero _)
    | succ fuel =>
      have hlen : l.ids.length + r.ids.length ≤ fuel := by
        rw [Tree.ids, List.length_cons, List.length_append] at hfuel
        exact Nat.le_of_succ_le_succ hfuel
      have hnode : h.nodes i = ⟨k, v, ctxUp ctx, l.root, r.root, c⟩ := hs.rep.tree.1
      rw [Tree.root, Heap.insertLoop, hnode]
      dsimp only
      cases heq : O.eq key k with
      | true =>
        obtain ⟨hg, hlist, hop⟩ := hs.setDatum heq hbound (fun n => { n with datum }) rfl
        exact ⟨_, S, _, rfl, hg, hlist, hop⟩
      | false =>
        cases hlt : O.lt key k with
        | true =>
          refine ihl (hs.left hlt) hbound
            (Nat.le_trans (Nat.le_add_right _ _) hlen) ?_
          rintro f hf
          rw [← Option.some.inj hf]
        | false =>
          refine ihr (hs.right (O.lt_of_not heq hlt)) hbound
            (Nat.le_trans (Nat.le_add_left _ _) hlen) ?_
          rintro f hf
          rw [← Option.some.inj hf]

theorem Good.insert (hg : Good O h t S x) (key datum) :
    ∃ h' S' y, h.insert O t key datum = .ok h' ∧ Good O h' t S' y ∧
      y.toList = put O x.toList key datum ∧ Op t S S' h h' := by
  have hlen := hg.rep.length_le hg.bound
  have hroot : h.roots t = x.root := hg.rep.around
  rw [Heap.insert, hroot]
  refine insertLoop_spec (hg.search key) hg.bound (by rw [Heap.fuel]; omega) ?_
  exact fun f hf => absurd hf (Option.some_ne_none f).symm

end MitScheme.Runtime.RbTree
