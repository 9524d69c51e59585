import MitScheme.Runtime.RbTreeInsert

/-! # Red-black trees: deleting

`delete-fixup!` is given a tree that has one black node too few on its paths. Each of its
cases ends with a red-black tree, or moves the shortage up one level. -/

namespace MitScheme.Runtime.RbTree
open Lib.SortedMap

variable {α β : Type} {h h' : Heap α β} {t : TreeId} {S : List NodeId} {ctx : Ctx α β}
  {x y : Tree α β} {d : Dir} {i j : NodeId} {c c' : Color} {k k' : α} {v v' : β}
  {a b e : Tree α β} {n m : Nat}

/-! ## Fixing a short path -/

/-- A tree that has one black node too few on its paths, as `delete-fixup!` is given it: a
red root may be above red nodes. -/
inductive Short : Tree α β → Nat → Prop
  | black {x : Tree α β} {n : Nat} : RB x .black n → Short x n
  | red {i : NodeId} {k : α} {v : β} {l r : Tree α β} {cl cr : Color} {n : Nat} :
    RB l cl n → RB r cr n → Short (.node i .red k v l r) n

theorem CtxOk.cons_inv {f} (hctx : CtxOk (f :: ctx) .black n) :
    (f.c = .red ∧ RB f.sib .black n ∧ CtxOk ctx .red n) ∨
      f.c = .black ∧ ∃ c', RB f.sib c' n ∧ CtxOk ctx .black (n + 1) := by
  cases hctx with
  | red hf hsib hctx => exact .inl ⟨hf, hsib, hctx⟩
  | black hf hsib hctx => exact .inr ⟨hf, _, hsib, hctx⟩

theorem CtxOk.refill {f} (hctx : CtxOk (f :: ctx) .black n) (ha : RB a .black n)
    (hb : RB b .black n) : ∃ m, RB (plug ctx (Tree.mk d i f.c k v a b)) .black m := by
  rcases hctx.cons_inv with ⟨hf, -, hctx⟩ | ⟨hf, c', -, hctx⟩
  · rw [hf]
    exact plug_rb (rb_red ha hb) hctx
  · rw [hf]
    exact plug_rb (rb_black ha hb) hctx

theorem Rep.setColor_far {u w cu cw ku kw vu vw d'}
    (hr : Rep h t S ctx (Tree.mk d u cu ku vu x (Tree.mk d' w cw kw vw a b))) (c') :
    Rep (h.setColor w c') t S ctx (Tree.mk d u cu ku vu x (Tree.mk d' w c' kw vw a b)) := by
  have hw := (hr.down_mk_neg.setColor c').up
  rwa [Frame.fill, Tree.mk_neg] at hw

theorem Rep.isRed_root (hr : Rep h t S ctx x) : h.isRed x.root = decide (x.color = .red) := by
  cases x with
  | leaf => rfl
  | node i c k v l r =>
    show decide ((h.nodes i).color = .red) = _
    rw [hr.tree.1]
    rfl

theorem Rep.deleteCase4 {u w q cu cw cq ku kw kq vu vw vq p}
    (hctx : CtxOk (⟨d, u, cu, ku, vu, e⟩ :: ctx) .black (n + 1))
    (hr : Rep h t S ctx (Tree.mk d u cu ku vu x
      (Tree.mk d w cw kw vw p (Tree.mk d q cq kq vq a b)))) (hx : RB x c n) (hp : RB p c' n)
    (ha : RB a .black n) (hb : RB b .black n) :
    ∃ h' y m, h.deleteCase4 t u d w = .ok h' ∧ Rep h' t S [] y ∧ Within S t h h' ∧
      y.toList = (plug ctx (Tree.mk d u cu ku vu x
        (Tree.mk d w cw kw vw p (Tree.mk d q cq kq vq a b)))).toList ∧ RB y .black m := by
  have hcu : (h.nodes u).color = cu := by rw [hr.node, ofLinks_color]
  have hr1 := hr.setColor_far cu
  have hr2 := hr1.setColor .black
  have hlink : (((h.setColor w cu).setColor u .black).nodes w).link d.neg = some q := by
    rw [hr2.down_mk_neg.node, ofLinks_link_neg, Tree.root_mk]
  have hr3 := (hr2.down_mk_neg.setColor_far .black).up
  rw [Frame.fill, Tree.mk_neg] at hr3
  obtain ⟨h4, hh4, hr4, hw4⟩ := hr3.rotate
  obtain ⟨m, hm⟩ := hctx.refill (d := d) (i := w) (k := kw) (v := vw)
    (rb_black (d := d) (i := u) (k := ku) (v := vu) hx hp)
    (rb_black (d := d) (i := q) (k := kq) (v := vq) ha hb)
  obtain ⟨h5, y, m', hh5, hr5, hw5, hlist5, hm'⟩ :=
    hr4.toRoot.blackenRoot (plug_ne_leaf Tree.mk_ne_leaf) hm
  refine ⟨h5, y, m', ?_, hr5, ?_, ?_, hm'⟩
  · simp only [Heap.deleteCase4, hcu, hlink, Heap.deref, hh4, bind, Except.bind]
    exact hh5
  · refine (within_setColor hr.down_mk_neg.mem_ids t h cu).trans ?_
    refine (within_setColor hr1.mem_ids t _ .black).trans ?_
    refine (within_setColor hr2.down_mk_neg.down_mk_neg.mem_ids t _ .black).trans ?_
    exact hw4.trans hw5
  · rw [hlist5]
    refine plug_toList_congr ?_
    rw [rotate_toList]
    exact mk_toList_congr rfl (mk_toList_congr rfl (color_toList ..))

theorem Rep.deleteCase3 {u w q cu cw cq ku kw kq vu vw vq p}
    (hctx : CtxOk (⟨d, u, cu, ku, vu, e⟩ :: ctx) .black (n + 1))
    (hr : Rep h t S ctx (Tree.mk d u cu ku vu x
      (Tree.mk d w cw kw vw (Tree.mk d q cq kq vq a b) p))) (hx : RB x c n) (hp : RB p .black n)
    (ha : RB a .black n) (hb : RB b .black n) :
    ∃ h' y m, h.deleteCase3 t u d w q = .ok h' ∧ Rep h' t S [] y ∧ Within S t h h' ∧
      y.toList = (plug ctx (Tree.mk d u cu ku vu x
        (Tree.mk d w cw kw vw (Tree.mk d q cq kq vq a b) p))).toList ∧ RB y .black m := by
  have hr1 := (hr.down_mk_neg.down_mk.setColor .black).up
  have hr2 := hr1.setColor .red
  dsimp only [Frame.fill] at hr1 hr2
  rw [← Tree.mk_neg d w, ← Tree.mk_neg d q] at hr2
  obtain ⟨h3, hh3, hr3, hw3⟩ := hr2.rotate
  have hr4 := hr3.up
  rw [Frame.fill, Tree.mk_neg, Tree.mk_neg, Tree.mk_neg] at hr4
  have hlink : (h3.nodes u).link d.neg = some q := by
    rw [hr4.node, ofLinks_link_neg, Tree.root_mk]
  obtain ⟨h5, y, m, hh5, hr5, hw5, hlist5, hm⟩ := hr4.deleteCase4 hctx hx ha hb hp
  refine ⟨h5, y, m, ?_, hr5, ?_, ?_, hm⟩
  · simp only [Heap.deleteCase3, hh3, hlink, Heap.deref, bind, Except.bind]
    exact hh5
  · refine (within_setColor hr.down_mk_neg.down_mk.mem_ids t h .black).trans ?_
    exact (within_setColor hr1.mem_ids t _ .red).trans (hw3.trans hw5)
  · rw [hlist5]
    refine plug_toList_congr (mk_toList_congr rfl ?_)
    rw [← rotate_toList]
    exact mk_toList_congr (color_toList ..) rfl

theorem Rep.deleteCase1 {f w} (hr : Rep h t S (f :: ctx) x)
    (hctx : CtxOk (f :: ctx) .black (n + 1)) (hw : f.sib.root = some w) :
    ∃ h' f' ctx' w', h.deleteCase1 t f.i f.d w = .ok (w', h') ∧ Rep h' t S (f' :: ctx') x ∧
      Within S t h h' ∧ CtxOk (f' :: ctx') .black (n + 1) ∧ f'.i = f.i ∧ f'.d = f.d ∧
      f'.sib.root = some w' ∧ RB f'.sib .black (n + 1) ∧ (f'.c = .red ∨ ctx' = ctx) ∧
      (plug (f' :: ctx') x).toList = (plug (f :: ctx) x).toList := by
  obtain ⟨d, u, cu, ku, vu, sib⟩ := f
  dsimp only at hw ⊢
  cases sib with
  | leaf => exact absurd hw (Option.some_ne_none w).symm
  | node w' cw kw vw l r =>
    obtain rfl : w' = w := Option.some.inj hw
    obtain ⟨p, q, hpq⟩ := exists_mk d w' cw kw vw l r
    rw [hpq] at hr hctx ⊢
    have hcw : (h.nodes w').color = cw := by
      rw [hr.up.down_mk_neg.node, ofLinks_color]
    by_cases hred : cw = .red
    · subst hred
      rcases hctx.cons_inv with ⟨-, hsib, -⟩ | ⟨hcu, c', hsib, hctx'⟩
      · exact absurd hsib.red_inv.1 (by decide)
      · dsimp only at hcu hsib
        subst hcu
        obtain ⟨-, hp, hq⟩ := hsib.red_inv
        have hr1 := hr.up.setColor_far .black
        have hr2 := hr1.setColor .red
        obtain ⟨h3, hh3, hr3, hw3⟩ := hr2.rotate
        cases hp with
        | @black j kj vj pl pr cl cr m hpl hpr =>
          have hlink : (h3.nodes u).link d.neg = some j := by
            rw [hr3.down_mk.node, ofLinks_link_neg]
            rfl
          refine ⟨h3, ⟨d, u, .red, ku, vu, .node j .black kj vj pl pr⟩,
            ⟨d, w', .black, kw, vw, q⟩ :: ctx, j, ?_, hr3.down_mk.down_mk, ?_,
            .red rfl (.black hpl hpr) (.black rfl hq hctx'), rfl, rfl, rfl, .black hpl hpr,
            .inl rfl, ?_⟩
          · simp only [Heap.deleteCase1, hcw, if_pos, hh3, hlink, Heap.deref, bind, Except.bind]
          · refine (within_setColor hr.up.down_mk_neg.mem_ids t h .black).trans ?_
            exact (within_setColor hr1.mem_ids t _ .red).trans hw3
          · show (plug ctx _).toList = (plug ctx _).toList
            refine plug_toList_congr ?_
            refine (rotate_toList d u w' .red .black ..).trans ?_
            exact mk_toList_congr rfl (color_toList ..)
    · have hblack : RB (Tree.mk d w' cw kw vw p q) .black (n + 1) := by
        rcases hctx.cons_inv with ⟨-, hsib, -⟩ | ⟨-, c', hsib, -⟩
        · exact hsib
        · dsimp only at hsib
          rw [← hpq] at hsib ⊢
          cases hsib with
          | red => exact absurd rfl hred
          | black hl hr => exact .black hl hr
      refine ⟨h, _, ctx, w', ?_, hr, Within.refl S t h, hctx, rfl, rfl, Tree.root_mk .., hblack,
        .inr rfl, rfl⟩
      rw [Heap.deleteCase1, if_neg (by rw [hcw]; exact hred)]

theorem Rep.side_root {f} (hr : Rep h t S (f :: ctx) x) (hsib : f.sib.root ≠ x.root) :
    bToD (decide (x.root = (h.nodes f.i).left)) = f.d := by
  rw [hr.parent]
  cases hd : f.d with
  | left => simp [Node.ofLinks, bToD]
  | right => simp [Node.ofLinks, bToD, Ne.symm hsib]

theorem Rep.sib_root_ne_root {f w} (hr : Rep h t S (f :: ctx) x) (hw : f.sib.root = some w) :
    f.sib.root ≠ x.root := by
  intro heq
  exact hr.sib_root_ne (heq.symm.trans hw) hw

theorem deleteFixup_black {fuel xr u w w'} (hx : h.isRed xr = false)
    (hd : bToD (decide (xr = (h.nodes u).left)) = d) (hw : (h.nodes u).link d.neg = some w)
    (hcase1 : h.deleteCase1 t u d w = .ok (w', h')) :
    Heap.deleteFixup t (fuel + 1) xr (some u) h =
      h'.deleteCases t u d w' fun h => Heap.deleteFixup t fuel (some u) (h.nodes u).up h := by
  cases xr with
  | none =>
    rw [Heap.deleteFixup, hx]
    simp only [hd, hw, Heap.deref, hcase1, bind, Except.bind]
    rfl
  | some i =>
    rw [Heap.deleteFixup, hx]
    simp only [hd, hw, Heap.deref, hcase1, bind, Except.bind]
    rfl

theorem RB.red_or_black (hx : RB x c n) : c = .red ∨ c = .black := by
  cases hx with
  | leaf => exact .inr rfl
  | red => exact .inl rfl
  | black => exact .inr rfl

theorem RB.of_red (hx : RB x .red n) (d) :
    ∃ j k v a b, x = Tree.mk d j .red k v a b ∧ RB a .black n ∧ RB b .black n := by
  cases hx with
  | @red j k v l r _ hl hr =>
    cases d with
    | left => exact ⟨j, k, v, l, r, rfl, hl, hr⟩
    | right => exact ⟨j, k, v, r, l, rfl, hr, hl⟩

theorem RB.of_black (hx : RB x .black (n + 1)) (d) :
    ∃ j k v a b ca cb, x = Tree.mk d j .black k v a b ∧ RB a ca n ∧ RB b cb n := by
  cases hx with
  | @black j k v l r cl cr _ hl hr =>
    cases d with
    | left => exact ⟨j, k, v, l, r, cl, cr, rfl, hl, hr⟩
    | right => exact ⟨j, k, v, r, l, cr, cl, rfl, hr, hl⟩

theorem Rep.deleteCases {u w cu ku kw vu vw p q cp cq} {loop : Heap α β → Except Fault (Heap α β)}
    (hr : Rep h t S ctx (Tree.mk d u cu ku vu x (Tree.mk d w .black kw vw p q)))
    (hctx : CtxOk (⟨d, u, cu, ku, vu, e⟩ :: ctx) .black (n + 1)) (hx : RB x .black n)
    (hp : RB p cp n) (hq : RB q cq n) (hloop : RB p .black n → RB q .black n →
      Rep (h.setColor w .red) t S ctx (Tree.mk d u cu ku vu x (Tree.mk d w .red kw vw p q)) →
      ∃ h' y m, loop (h.setColor w .red) = .ok h' ∧ Rep h' t S [] y ∧
        Within S t (h.setColor w .red) h' ∧
        y.toList = (plug ctx (Tree.mk d u cu ku vu x (Tree.mk d w .red kw vw p q))).toList ∧
        RB y .black m) :
    ∃ h' y m, h.deleteCases t u d w loop = .ok h' ∧ Rep h' t S [] y ∧ Within S t h h' ∧
      y.toList = (plug ctx (Tree.mk d u cu ku vu x (Tree.mk d w .black kw vw p q))).toList ∧
      RB y .black m := by
  have hw := hr.down_mk_neg
  have hfar : (h.nodes w).link d.neg = q.root := by rw [hw.node, ofLinks_link_neg]
  have hnear : (h.nodes w).link d = p.root := by rw [hw.node, ofLinks_link]
  rw [Heap.deleteCases, hfar, hw.down_mk_neg.isRed_root, hnear]
  rcases hq.red_or_black with rfl | rfl
  · obtain ⟨j, kj, vj, a, b, rfl, ha, hb⟩ := hq.of_red d
    rw [Tree.color_mk]
    exact hr.deleteCase4 hctx hx hp ha hb
  · rw [hq.color_eq]
    show ∃ h' y m, _ = _ ∧ _
    rcases hp.red_or_black with rfl | rfl
    · obtain ⟨j, kj, vj, a, b, rfl, ha, hb⟩ := hp.of_red d
      have hcolor : (h.nodes j).color ≠ .black := by
        rw [hw.down_mk.node, ofLinks_color]
        decide
      obtain ⟨h', y, m, hh', hrest⟩ := hr.deleteCase3 hctx hx hq ha hb
      refine ⟨h', y, m, ?_, hrest⟩
      rw [Tree.root_mk, ← hh']
      exact if_neg hcolor
    · have hr1 := hr.setColor_far .red
      obtain ⟨h', y, m, hh', hr', hw', hlist, hm⟩ := hloop hp hq hr1
      refine ⟨h', y, m, ?_, hr', (within_setColor hw.mem_ids t h .red).trans hw', ?_, hm⟩
      · rw [← hh']
        cases p with
        | leaf => rfl
        | node j cj kj vj l r =>
          have hcolor : (h.nodes j).color = .black := by
            rw [hw.down_mk.tree.1]
            exact hp.color_eq
          exact if_pos hcolor
      · rw [hlist]
        exact plug_toList_congr (mk_toList_congr rfl (color_toList ..))

theorem Rep.deleteFixup_red {fuel ca cb u} (hr : Rep h t S ctx (Tree.mk d i .red k v a b))
    (ha : RB a ca n) (hb : RB b cb n) (hctx : CtxOk ctx .black (n + 1)) (hfuel : 0 < fuel) :
    ∃ h' y m, Heap.deleteFixup t fuel (some i) u h = .ok h' ∧ Rep h' t S [] y ∧
      Within S t h h' ∧ y.toList = (plug ctx (Tree.mk d i .red k v a b)).toList ∧
      RB y .black m := by
  obtain ⟨m, hm⟩ := plug_rb (rb_black (d := d) (i := i) (k := k) (v := v) ha hb) hctx
  refine ⟨h.setColor i .black, _, m, ?_, (hr.setColor .black).toRoot,
    within_setColor hr.mem_ids t h .black, plug_toList_congr (color_toList ..), hm⟩
  obtain ⟨fuel, rfl⟩ : ∃ fuel', fuel = fuel' + 1 := ⟨fuel - 1, by omega⟩
  cases u with
  | none => rfl
  | some u =>
    have hred := hr.isRed_root
    rw [Tree.root_mk, Tree.color_mk] at hred
    rw [Heap.deleteFixup, if_pos (by rw [hred]; rfl)]

theorem deleteFixup_spec : ∀ {fuel : Nat} {h : Heap α β} {ctx : Ctx α β} {x : Tree α β} {n : Nat},
    Rep h t S ctx x → Short x n → CtxOk ctx .black (n + 1) → ctx.length < fuel →
    ∃ h' y m, Heap.deleteFixup t fuel x.root (ctxUp ctx) h = .ok h' ∧ Rep h' t S [] y ∧
      Within S t h h' ∧ y.toList = (plug ctx x).toList ∧ RB y .black m := by
  intro fuel
  induction fuel with
  | zero => exact fun _ _ _ hfuel => absurd hfuel (Nat.not_lt_zero _)
  | succ fuel ih =>
    intro h ctx x n hr hx hctx hfuel
    cases hx with
    | red hl hr' => exact Rep.deleteFixup_red (d := .left) hr hl hr' hctx (Nat.succ_pos _)
    | black hx =>
      cases ctx with
      | nil =>
        cases x with
        | leaf => exact ⟨h, .leaf, n, rfl, hr, Within.refl S t h, rfl, hx⟩
        | node i c k v l r =>
          have hrep : Rep h t S [] (Tree.mk .left i c k v l r) := hr
          obtain rfl : c = .black := hx.color_eq
          exact ⟨h.setColor i .black, _, n, rfl, hrep.setColor .black,
            within_setColor hrep.mem_ids t h .black, rfl, hx⟩
      | cons f ctx =>
        have hblack : h.isRed x.root = false := by
          rw [hr.isRed_root, hx.color_eq]
          rfl
        obtain ⟨w, hw⟩ : ∃ w, f.sib.root = some w := by
          have hsib : ∃ c, RB f.sib c (n + 1) := by
            rcases hctx.cons_inv with ⟨-, hsib, -⟩ | ⟨-, c', hsib, -⟩
            · exact ⟨_, hsib⟩
            · exact ⟨_, hsib⟩
          obtain ⟨c, hsib⟩ := hsib
          cases hs : f.sib with
          | leaf =>
            rw [hs] at hsib
            cases hsib
          | node w c k v l r => exact ⟨w, rfl⟩
        have hside := hr.side_root (hr.sib_root_ne_root hw)
        have hlink : (h.nodes f.i).link f.d.neg = some w := by
          rw [hr.parent, ofLinks_link_neg, hw]
        obtain ⟨h1, f1, ctx1, w1, hh1, hr1, hw1, hctx1, hi1, hd1, hroot1, hsib1, hmore, hlist1⟩ :=
          hr.deleteCase1 hctx hw
        show ∃ h' y m, Heap.deleteFixup t (fuel + 1) x.root (some f.i) h = .ok h' ∧ _
        rw [deleteFixup_black hblack hside hlink hh1]
        rw [← hlist1]
        obtain ⟨d, u, cu, ku, vu, sib⟩ := f1
        dsimp only at hi1 hd1 hroot1 hsib1
        rw [← hi1, ← hd1]
        obtain ⟨w', kw, vw, p, q, cp, cq, hpq, hp, hq⟩ := hsib1.of_black d
        subst hpq
        obtain rfl : w' = w1 := Option.some.inj ((Tree.root_mk ..).symm.trans hroot1)
        suffices hcases : ∃ h' y m, h1.deleteCases t u d w'
            (fun h => Heap.deleteFixup t fuel (some u) (h.nodes u).up h) = .ok h' ∧
            Rep h' t S [] y ∧ Within S t h1 h' ∧ y.toList = (plug ctx1 _).toList ∧
            RB y .black m by
          obtain ⟨h', y, m, hh', hr2, hw2, hlist2, hm⟩ := hcases
          exact ⟨h', y, m, hh', hr2, hw1.trans hw2, hlist2, hm⟩
        refine hr1.up.deleteCases hctx1 hx hp hq ?_
        intro hp hq hr2
        rw [hr2.node, ofLinks_up]
        rcases hctx1.cons_inv with ⟨hcu, -, hctx2⟩ | ⟨hcu, c', -, hctx2⟩
        · dsimp only at hcu
          subst hcu
          refine hr2.deleteFixup_red hx (rb_red hp hq) (hctx2.of_red .black) ?_
          exact Nat.lt_of_lt_of_le (Nat.succ_pos _) (Nat.le_of_lt_succ hfuel)
        · dsimp only at hcu hmore
          subst hcu
          obtain rfl : ctx1 = ctx := hmore.resolve_left (by decide)
          have hrec := ih hr2 (.black (rb_black hx (rb_red hp hq))) hctx2
            (Nat.lt_of_succ_lt_succ hfuel)
          rwa [Tree.root_mk] at hrec

/-! ## Parts of a tree -/

theorem plug_append (fs ctx) : ∀ x : Tree α β,
    plug (fs ++ ctx) x = plug ctx (plug fs x) := by
  induction fs with
  | nil => exact fun x => rfl
  | cons f fs ih => exact fun x => ih (f.fill x)

theorem lefts_append (fs ctx : Ctx α β) : lefts (fs ++ ctx) = lefts ctx ++ lefts fs := by
  induction fs with
  | nil => exact (List.append_nil _).symm
  | cons f fs ih => rw [List.cons_append, lefts, lefts, ih, List.append_assoc]

theorem rights_append (fs ctx : Ctx α β) : rights (fs ++ ctx) = rights fs ++ rights ctx := by
  induction fs with
  | nil => rfl
  | cons f fs ih => rw [List.cons_append, rights, rights, ih, List.append_assoc]

theorem Rep.focus {ctx} : ∀ {x : Tree α β}, Rep h t S [] (plug ctx x) →
    Rep h t S ctx x := by
  induction ctx with
  | nil => exact fun hr => hr
  | cons f ctx ih => exact fun hr => (ih hr).down

theorem RB.focus {ctx} : ∀ {x : Tree α β}, RB (plug ctx x) .black n →
    ∃ c m, RB x c m ∧ CtxOk ctx c m := by
  induction ctx with
  | nil => exact fun hx => ⟨_, _, hx, .nil⟩
  | cons f ctx ih =>
    intro x hx
    obtain ⟨c, m, hfill, hctx⟩ := ih hx
    exact hfill.descend hctx

/-- The pairs on the side `d` of the hole. -/
def beside (d : Dir) (ctx : Ctx α β) : List (α × β) :=
  match d with
  | .left => lefts ctx
  | .right => rights ctx

theorem beside_snoc {fs} {f : Frame α β} (hf : f.d = d) (hfs : beside d fs = []) :
    beside d (fs ++ [f]) = [] := by
  cases d with
  | left =>
    rw [beside, lefts_append, show lefts fs = [] from hfs, lefts, hf]
    rfl
  | right =>
    rw [beside, rights_append, show rights fs = [] from hfs, rights, hf]
    rfl

theorem extreme_mk {fuel up} (hx : Holds h.nodes up (Tree.mk d i c k v a b))
    (hrec : ∀ j, a.root = some j → ∃ fs j' c k v e, h.extreme d fuel j = .ok j' ∧
      plug fs (Tree.mk d j' c k v .leaf e) = a ∧ beside d fs = []) :
    ∃ fs j c' k' v' e, h.extreme d (fuel + 1) i = .ok j ∧
      plug fs (Tree.mk d j c' k' v' .leaf e) = Tree.mk d i c k v a b ∧ beside d fs = [] := by
  have hlink : (h.nodes i).link d = a.root := by rw [(holds_mk.mp hx).1, ofLinks_link]
  rw [Heap.extreme, hlink]
  cases a with
  | leaf =>
    refine ⟨[], i, c, k, v, b, rfl, rfl, ?_⟩
    cases d <;> rfl
  | node j cj kj vj l r =>
    obtain ⟨fs, j', c', k', v', e, hj, hplug, hfs⟩ := hrec j rfl
    refine ⟨fs ++ [⟨d, i, c, k, v, b⟩], j', c', k', v', e, hj, ?_, beside_snoc rfl hfs⟩
    rw [plug_append, hplug]
    rfl

theorem extreme_spec {x} : ∀ {fuel : Nat} {up : Option NodeId} {i : NodeId},
    Holds h.nodes up x → x.root = some i → x.ids.length ≤ fuel →
    ∃ fs j c k v a, h.extreme d fuel i = .ok j ∧ plug fs (Tree.mk d j c k v .leaf a) = x ∧
      beside d fs = [] := by
  induction x with
  | leaf => exact fun _ hroot _ => absurd hroot (Option.some_ne_none _).symm
  | node i c k v l r ihl ihr =>
    intro fuel up i' hx hroot hfuel
    obtain rfl : i = i' := Option.some.inj hroot
    have hl := hx.2.1
    have hr := hx.2.2
    rw [Tree.ids, List.length_cons, List.length_append] at hfuel
    obtain ⟨fuel, rfl⟩ : ∃ fuel', fuel = fuel' + 1 := ⟨fuel - 1, by omega⟩
    cases d with
    | left => exact extreme_mk (d := .left) hx fun j hj => ihl hl hj (by omega)
    | right => exact extreme_mk (d := .right) hx fun j hj => ihr hr hj (by omega)

/-! ## Unlinking a node -/

theorem Within.mono {S S'} (hw : Within S' t h h') (hsub : ∀ i ∈ S', i ∈ S) : Within S t h h' :=
  ⟨fun i hi => hw.nodes i (mt (hsub i) hi), hw.roots, hw.nodeCount, hw.treeCount⟩

theorem within_setUp? (up) (hx : ∀ i ∈ x.ids, i ∈ S) : Within S t h (h.setUp? x.root up) := by
  cases x with
  | leaf => exact Within.refl S t h
  | node i c k v l r => exact within_modify (hx i List.mem_cons_self) t h fun n => { n with up }

theorem Rep.unlink (hr : Rep h t S ctx (Tree.mk d i c k v x .leaf)) :
    Rep ((h.setUp? x.root (ctxUp ctx)).replaceChild t (ctxUp ctx) .left i x.root) t
        (ctxIds ctx ++ x.ids) ctx x ∧
      Within S t h ((h.setUp? x.root (ctxUp ctx)).replaceChild t (ctxUp ctx) .left i x.root) ∧
      ∀ j ∈ ctxIds ctx ++ x.ids, j ∈ S := by
  have hnodup := hr.nodup
  have hperm : (ctxIds ctx ++ (Tree.mk d i c k v x .leaf).ids).Perm
      (i :: (ctxIds ctx ++ x.ids)) := by
    rw [List.perm_iff_count]
    intro n
    cases d <;> simp only [Tree.mk, Tree.ids, List.count_cons, List.count_append,
      List.append_nil, List.nil_append] <;> omega
  obtain ⟨hi, hrest⟩ := List.nodup_cons.mp (hperm.nodup_iff.mp hnodup)
  obtain ⟨hcn, hxn, hdisj⟩ := List.nodup_append.mp hrest
  have hsub : ∀ j ∈ ctxIds ctx ++ x.ids, j ∈ S := fun j hj =>
    hr.ids.mem_iff.mp (hperm.mem_iff.mpr (List.mem_cons_of_mem _ hj))
  have hctx : HoldsCtx (h.setUp? x.root (ctxUp ctx)).nodes
      ((h.setUp? x.root (ctxUp ctx)).roots t) ctx (some i) := by
    have hroots : (h.setUp? x.root (ctxUp ctx)).roots = h.roots := by cases x <;> rfl
    have haround := hr.around
    rw [Tree.root_mk] at haround
    rw [hroots]
    exact haround.frame fun j hj => setUp?_of_notMem h fun hjx => hdisj j hj j hjx rfl
  obtain ⟨hctx', hw⟩ := hctx.replaceChild
    (fun hm => hi (List.mem_append_left _ hm)) hcn .left x.root
  refine ⟨⟨hctx', ?_, List.Perm.refl _, hrest⟩, ?_, hsub⟩
  · refine ((holds_mk.mp hr.tree).2.1.setUp? hxn).frame fun j hj => hw.nodes j fun hjc => ?_
    exact hdisj j hjc j hj rfl
  · refine (within_setUp? (ctxUp ctx) fun j hj => hsub j (List.mem_append_right _ hj)).trans ?_
    exact hw.mono fun j hj => hsub j (List.mem_append_left _ hj)

theorem RB.short (hx : RB x c n) : Short x n := by
  cases hx with
  | leaf => exact .black .leaf
  | red hl hr => exact .red hl hr
  | black hl hr => exact .black (.black hl hr)

theorem Rep.unlinkNode (hr : Rep h t S ctx (Tree.mk d i c k v x .leaf))
    (hrb : RB (Tree.mk d i c k v x .leaf) c' n) (hctx : CtxOk ctx c' n)
    (hbound : ∀ i ∈ S, i < h.nodeCount) :
    ∃ h' S' y m, h.unlinkNode t i = .ok h' ∧ Rep h' t S' [] y ∧ Within S t h h' ∧
      (∀ j ∈ S', j ∈ S) ∧ y.toList = (plug ctx x).toList ∧ RB y .black m := by
  obtain ⟨hr1, hw1, hsub⟩ := hr.unlink
  have hchild : ((h.nodes i).left <|> (h.nodes i).right) = x.root := by
    rw [hr.node]
    cases d with
    | left => cases x <;> rfl
    | right => rfl
  have hup : (h.nodes i).up = ctxUp ctx := by rw [hr.node, ofLinks_up]
  have hcolor : (h.nodes i).color = c := by rw [hr.node, ofLinks_color]
  have hunlink : h.unlinkNode t i = if c = .black then
      Heap.deleteFixup t ((h.setUp? x.root (ctxUp ctx)).replaceChild t (ctxUp ctx) .left i
        x.root).fuel x.root (ctxUp ctx)
        ((h.setUp? x.root (ctxUp ctx)).replaceChild t (ctxUp ctx) .left i x.root)
      else .ok ((h.setUp? x.root (ctxUp ctx)).replaceChild t (ctxUp ctx) .left i x.root) := by
    rw [Heap.unlinkNode, hchild, hup, hcolor]
    cases x <;> rfl
  rw [hunlink]
  generalize (h.setUp? x.root (ctxUp ctx)).replaceChild t (ctxUp ctx) .left i x.root = h1 at *
  have hc : c = c' := by
    have hcolor := hrb.color_eq
    rwa [Tree.color_mk] at hcolor
  subst hc
  rcases hrb.red_or_black with rfl | rfl
  · obtain ⟨-, hx, -⟩ := hrb.red_inv
    obtain ⟨m, hm⟩ := plug_rb hx (hctx.of_red .black)
    exact ⟨h1, _, _, m, rfl, hr1.toRoot, hw1, hsub, rfl, hm⟩
  · obtain ⟨-, m, ca, cb, rfl, hx, -⟩ := hrb.black_inv
    have hlen : ctx.length < h1.fuel := by
      have hle := hr1.length_le fun j hj => by
        rw [hw1.nodeCount]
        exact hbound j (hsub j hj)
      have hctxlen := ctx_length_le ctx
      rw [Heap.fuel]
      omega
    obtain ⟨h2, y, m', hh2, hr2, hw2, hlist, hm'⟩ := deleteFixup_spec hr1 hx.short hctx hlen
    exact ⟨h2, _, y, m', hh2, hr2, hw1.trans (hw2.mono hsub), hsub, hlist, hm'⟩

variable {O : KeyOrder α} {key : α} {l r : Tree α β}

section
variable (hr : Rep h t S ctx (.node i c k v l r))
include hr

theorem Rep.deleteNode_one (hone : l = .leaf ∨ r = .leaf) :
    h.deleteNode t i = h.unlinkNode t i := by
  have hnode : h.nodes i = ⟨k, v, ctxUp ctx, l.root, r.root, c⟩ := hr.tree.1
  rw [Heap.deleteNode, if_neg]
  rw [hnode]
  rintro ⟨hl, hr⟩
  rcases hone with rfl | rfl
  · exact absurd hl Bool.false_ne_true
  · exact absurd hr Bool.false_ne_true

theorem Rep.deleteNode_two (hbound : ∀ i ∈ S, i < h.nodeCount) (hl : l ≠ .leaf) (hr' : r ≠ .leaf) :
    ∃ fs j cj kj vj a, plug fs (.node j cj kj vj .leaf a) = r ∧ lefts fs = [] ∧
      h.deleteNode t i =
        (h.modify i fun n => { n with key := kj, datum := vj }).unlinkNode t j := by
  have hnode : h.nodes i = ⟨k, v, ctxUp ctx, l.root, r.root, c⟩ := hr.tree.1
  obtain ⟨rr, hroot⟩ : ∃ j, r.root = some j := by
    cases r with
    | leaf => exact absurd rfl hr'
    | node j _ _ _ _ _ => exact ⟨j, rfl⟩
  have hfuel : r.ids.length ≤ h.fuel := by
    have hlen := hr.length_le hbound
    rw [Tree.ids, List.length_cons, List.length_append] at hlen
    rw [Heap.fuel]
    omega
  obtain ⟨fs, j, cj, kj, vj, a, hj, hplug, hfs⟩ :=
    extreme_spec (d := .left) hr.tree.2.2 hroot hfuel
  refine ⟨fs, j, cj, kj, vj, a, hplug, hfs, ?_⟩
  have hrj : Rep h t S (fs ++ ⟨.right, i, c, k, v, l⟩ :: ctx) (.node j cj kj vj .leaf a) := by
    refine Rep.focus ?_
    rw [plug_append, show plug fs (.node j cj kj vj .leaf a) = r from hplug]
    exact hr.toRoot
  have hnext : h.nextNode i = .ok (some j) := by
    have hlink : (h.nodes i).link .right = some rr := by
      rw [hnode]
      exact hroot
    rw [Heap.nextNode, Heap.neighbour, hlink]
    show (h.extreme .left h.fuel rr).map some = _
    rw [hj]
    rfl
  rw [Heap.deleteNode, if_pos]
  · simp only [hnext, Heap.deref, bind, Except.bind]
    rw [hrj.tree.1]
  · rw [hnode]
    cases l with
    | leaf => exact absurd rfl hl
    | node =>
      cases r with
      | leaf => exact absurd rfl hr'
      | node => exact ⟨rfl, rfl⟩

theorem Rep.deleteNode (hrb : RB (.node i c k v l r) c' n) (hctx : CtxOk ctx c' n)
    (hbound : ∀ i ∈ S, i < h.nodeCount) :
    ∃ h' S' y m, h.deleteNode t i = .ok h' ∧ Rep h' t S' [] y ∧ Within S t h h' ∧
      (∀ j ∈ S', j ∈ S) ∧
      y.toList = (lefts ctx ++ l.toList) ++ (r.toList ++ rights ctx) ∧ RB y .black m := by
  by_cases hl : l = .leaf
  · subst hl
    rw [hr.deleteNode_one (.inl rfl)]
    obtain ⟨h', S', y, m, hh', hr', hw, hsub, hlist, hm⟩ :=
      Rep.unlinkNode (d := .right) hr hrb hctx hbound
    refine ⟨h', S', y, m, hh', hr', hw, hsub, ?_, hm⟩
    rw [hlist, plug_toList]
    simp [Tree.toList]
  · by_cases hr' : r = .leaf
    · subst hr'
      rw [hr.deleteNode_one (.inr rfl)]
      obtain ⟨h', S', y, m, hh', hr', hw, hsub, hlist, hm⟩ :=
        Rep.unlinkNode (d := .left) hr hrb hctx hbound
      refine ⟨h', S', y, m, hh', hr', hw, hsub, ?_, hm⟩
      rw [hlist, plug_toList]
      simp [Tree.toList]
    · obtain ⟨fs, j, cj, kj, vj, a, hplug, hfs, hdelete⟩ := hr.deleteNode_two hbound hl hr'
      have hr1 := hr.setPair (f := fun n => { n with key := kj, datum := vj }) rfl
      have hi : i ∈ S := hr.ids.mem_iff.mp (List.mem_append_right _ List.mem_cons_self)
      obtain ⟨m1, hm1⟩ := plug_rb (hrb.setPair kj vj) hctx
      have hwhole : plug ctx (.node i c kj vj l r) =
          plug (fs ++ ⟨.right, i, c, kj, vj, l⟩ :: ctx) (.node j cj kj vj .leaf a) := by
        rw [plug_append, hplug]
        rfl
      rw [hwhole] at hm1
      obtain ⟨c2, m2, hrb2, hctx2⟩ := hm1.focus
      have hr2 := (hwhole ▸ hr1.toRoot).focus
      obtain ⟨h', S', y, m, hh', hr3, hw, hsub, hlist, hm⟩ :=
        Rep.unlinkNode (d := .right) hr2 hrb2 hctx2 hbound
      refine ⟨h', S', y, m, hdelete.trans hh', hr3, (within_modify hi t h _).trans hw, hsub, ?_, hm⟩
      rw [hlist, plug_toList, lefts_append, rights_append, hfs, ← hplug, plug_node_toList, hfs]
      simp [lefts, rights, Tree.toList]

end

theorem Good.deleteNode (hg : Good O h t S x) (hx : plug ctx (.node i c k v l r) = x) :
    ∃ h' S' y, h.deleteNode t i = .ok h' ∧ Good O h' t S' y ∧
      y.toList = (lefts ctx ++ l.toList) ++ (r.toList ++ rights ctx) ∧ Op t S S' h h' := by
  subst hx
  obtain ⟨n, hn⟩ := hg.rb
  obtain ⟨c', m, hrb, hctx⟩ := hn.focus
  obtain ⟨h', S', y, m', hh', hr', hw, hsub, hlist, hm⟩ :=
    hg.rep.focus.deleteNode hrb hctx hg.bound
  refine ⟨h', S', y, hh', ⟨hr', ⟨m', hm⟩, ?_, ?_⟩, hlist, hw.op hsub⟩
  · have hsorted := hg.sorted
    rw [plug_node_toList] at hsorted
    obtain ⟨hbefore, hafter, haround⟩ := sorted_middle.mp hsorted
    rw [hlist]
    refine sorted_append.mpr ⟨hbefore, hafter, ?_⟩
    exact fun p hp q hq => O.trans (haround.below p hp) (haround.above q hq)
  · intro j hj
    rw [hw.nodeCount]
    exact hg.bound j (hsub j hj)

theorem Good.delete (hg : Good O h t S x) (key) :
    ∃ h' S' y, h.delete O t key = .ok h' ∧ Good O h' t S' y ∧
      y.toList = remove O x.toList key ∧ Op t S S' h h' := by
  rcases hg.findNode key with ⟨ctx, hfind, hs, hx⟩ | ⟨ctx, i, c, k, v, l, r, hfind, hs, heq, hx⟩
  · refine ⟨h, S, x, ?_, hg, ?_, (Within.refl S t h).op fun _ hi => hi⟩
    · simp only [Heap.delete, hfind, bind, Except.bind]
    · rw [← hx, plug_leaf_toList, hs.around.remove_absent]
  · obtain ⟨h', S', y, hh', hg', hlist, hop⟩ := hg.deleteNode hx
    refine ⟨h', S', y, ?_, hg', ?_, hop⟩
    · simp only [Heap.delete, hfind, bind, Except.bind]
      exact hh'
    · rw [hlist, ← hx, plug_node_toList, (hs.around_node heq).remove_present heq]

theorem Good.extremeNode (hg : Good O h t S x) (d) :
    (h.extremeNode t d = .ok none ∧ x = .leaf) ∨
    ∃ ctx i c k v a, h.extremeNode t d = .ok (some i) ∧ plug ctx (Tree.mk d i c k v .leaf a) = x ∧
      beside d ctx = [] := by
  have hroot : h.roots t = x.root := hg.rep.around
  rw [Heap.extremeNode, hroot]
  cases x with
  | leaf => exact .inl ⟨rfl, rfl⟩
  | node i c k v l r =>
    have hlen := hg.rep.length_le hg.bound
    have hfuel : (Tree.node i c k v l r).ids.length ≤ h.fuel := by
      rw [Heap.fuel]
      omega
    obtain ⟨fs, j, c, k, v, a, hj, hplug, hfs⟩ := extreme_spec (d := d) hg.rep.tree rfl hfuel
    refine .inr ⟨fs, j, c, k, v, a, ?_, hplug, hfs⟩
    show (h.extreme d h.fuel i).map some = _
    rw [hj]
    rfl

end MitScheme.Runtime.RbTree
