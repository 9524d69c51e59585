import Mathlib.Data.List.Perm.Subperm
import MitScheme.Runtime.RbTree

/-! # Red-black trees: the trees the heap holds

A tree is in the heap when each of its nodes is, with its links and its up pointer. A part
of it is in focus: the frames around it lead up to the root, and a change to the part or to
the frames gives the tree after it. -/

namespace MitScheme.Runtime.RbTree
open Lib.SortedMap
open List (flatMap_cons mem_append_left mem_append_right mem_cons_of_mem mem_cons_self)

/-! ## Trees and contexts -/

inductive Tree (α β : Type)
  | leaf
  | node (i : NodeId) (c : Color) (k : α) (v : β) (l r : Tree α β)

variable {α β : Type}

namespace Tree

def root : Tree α β → Option NodeId
  | leaf => none
  | node i _ _ _ _ _ => some i

def ids : Tree α β → List NodeId
  | leaf => []
  | node i _ _ _ l r => i :: (l.ids ++ r.ids)

def toList : Tree α β → List (α × β)
  | leaf => []
  | node _ _ k v l r => l.toList ++ (k, v) :: r.toList

/-- A node with the tree `a` on the side `d` and `b` on the other. -/
def mk (d : Dir) (i : NodeId) (c : Color) (k : α) (v : β) (a b : Tree α β) : Tree α β :=
  match d with
  | .left => node i c k v a b
  | .right => node i c k v b a

def color : Tree α β → Color
  | leaf => .black
  | node _ c _ _ _ _ => c

end Tree

/-- A node with the links `a` on the side `d` and `b` on the other. -/
def Node.ofLinks (d : Dir) (k : α) (v : β) (up a b : Option NodeId) (c : Color) : Node α β :=
  match d with
  | .left => ⟨k, v, up, a, b, c⟩
  | .right => ⟨k, v, up, b, a, c⟩

/-- What is around a tree: the node above it, on which side of it the tree is, and the tree
on its other side. -/
structure Frame (α β : Type) where
  d : Dir
  i : NodeId
  c : Color
  k : α
  v : β
  sib : Tree α β

def Frame.fill (f : Frame α β) (t : Tree α β) : Tree α β := Tree.mk f.d f.i f.c f.k f.v t f.sib

abbrev Ctx (α β : Type) := List (Frame α β)

def plug : Ctx α β → Tree α β → Tree α β
  | [], t => t
  | f :: ctx, t => plug ctx (f.fill t)

def ctxUp (ctx : Ctx α β) : Option NodeId := ctx.head?.map Frame.i

def Frame.ids (f : Frame α β) : List NodeId := f.i :: f.sib.ids

def ctxIds (ctx : Ctx α β) : List NodeId := ctx.flatMap Frame.ids

@[simp] theorem Dir.neg_neg (d : Dir) : d.neg.neg = d := by cases d <;> rfl

theorem Tree.mk_neg (d : Dir) (i : NodeId) (c : Color) (k : α) (v : β) (a b : Tree α β) :
    Tree.mk d.neg i c k v a b = Tree.mk d i c k v b a := by cases d <;> rfl

@[simp] theorem Tree.root_mk (d : Dir) (i : NodeId) (c : Color) (k : α) (v : β) (a b : Tree α β) :
    (Tree.mk d i c k v a b).root = some i := by cases d <;> rfl

@[simp] theorem Tree.color_mk (d : Dir) (i : NodeId) (c : Color) (k : α) (v : β) (a b : Tree α β) :
    (Tree.mk d i c k v a b).color = c := by cases d <;> rfl

theorem Tree.ids_mk (d i c k v) (a b : Tree α β) :
    (Tree.mk d i c k v a b).ids.Perm (i :: (a.ids ++ b.ids)) := by
  cases d with
  | left => exact List.Perm.refl _
  | right => exact List.Perm.cons i List.perm_append_comm

theorem plug_ids (ctx) : ∀ t : Tree α β,
    (plug ctx t).ids.Perm (ctxIds ctx ++ t.ids) := by
  induction ctx with
  | nil => exact fun t => List.Perm.refl _
  | cons f ctx ih =>
    intro t
    refine (ih (f.fill t)).trans ?_
    rw [ctxIds, ctxIds, flatMap_cons]
    refine List.perm_append_comm.trans ?_
    refine ((Tree.ids_mk f.d f.i f.c f.k f.v t f.sib).append_right _).trans ?_
    rw [Frame.ids, List.cons_append, List.cons_append, List.cons_append]
    refine List.Perm.cons f.i ?_
    rw [List.append_assoc, List.append_assoc]
    exact (List.perm_append_comm).trans (List.Perm.of_eq (List.append_assoc _ _ _))

/-! ## What the heap holds -/

/-- The nodes of the tree are in the heap, with `up` above the root. -/
def Holds (nodes : NodeId → Node α β) : Option NodeId → Tree α β → Prop
  | _, .leaf => True
  | up, .node i c k v l r =>
    nodes i = ⟨k, v, up, l.root, r.root, c⟩ ∧ Holds nodes (some i) l ∧ Holds nodes (some i) r

/-- The nodes of the context are in the heap, with `hole` in the place of the tree. -/
def HoldsCtx (nodes : NodeId → Node α β) (root : Option NodeId) :
    Ctx α β → Option NodeId → Prop
  | [], hole => root = hole
  | f :: ctx, hole =>
    nodes f.i = Node.ofLinks f.d f.k f.v (ctxUp ctx) hole f.sib.root f.c ∧
      Holds nodes (some f.i) f.sib ∧ HoldsCtx nodes root ctx (some f.i)

theorem holds_mk {nodes : NodeId → Node α β} {up d i c k v a b} :
    Holds nodes up (Tree.mk d i c k v a b) ↔
      nodes i = Node.ofLinks d k v up a.root b.root c ∧ Holds nodes (some i) a ∧
        Holds nodes (some i) b := by
  cases d with
  | left => exact Iff.rfl
  | right => exact ⟨fun ⟨h, hb, ha⟩ => ⟨h, ha, hb⟩, fun ⟨h, ha, hb⟩ => ⟨h, hb, ha⟩⟩

theorem Holds.frame {nodes nodes' : NodeId → Node α β} {t} :
    ∀ {up : Option NodeId}, Holds nodes up t → (∀ i ∈ t.ids, nodes' i = nodes i) →
    Holds nodes' up t := by
  induction t with
  | leaf => exact fun _ _ => trivial
  | node i c k v l r ihl ihr =>
    rintro up ⟨hi, hl, hr⟩ hsame
    refine ⟨(hsame i mem_cons_self).trans hi, ihl hl ?_, ihr hr ?_⟩
    · exact fun j hj => hsame j (mem_cons_of_mem _ (mem_append_left _ hj))
    · exact fun j hj => hsame j (mem_cons_of_mem _ (mem_append_right _ hj))

theorem HoldsCtx.frame {nodes nodes' : NodeId → Node α β} {root ctx} :
    ∀ {hole : Option NodeId}, HoldsCtx nodes root ctx hole →
    (∀ i ∈ ctxIds ctx, nodes' i = nodes i) → HoldsCtx nodes' root ctx hole := by
  induction ctx with
  | nil => exact fun h _ => h
  | cons f ctx ih =>
    rintro hole ⟨hf, hsib, hctx⟩ hsame
    have hf' : ∀ i ∈ f.ids, nodes' i = nodes i := fun i hi => hsame i (by
      rw [ctxIds, flatMap_cons]
      exact mem_append_left _ hi)
    refine ⟨(hf' f.i mem_cons_self).trans hf, ?_, ih hctx ?_⟩
    · exact hsib.frame fun i hi => hf' i (mem_cons_of_mem _ hi)
    · intro i hi
      refine hsame i ?_
      rw [ctxIds, flatMap_cons]
      exact mem_append_right _ hi

/-- The heap holds the tree `t` with the nodes `S`, with a part of it in focus. -/
structure Rep (h : Heap α β) (t : TreeId) (S : List NodeId) (ctx : Ctx α β) (x : Tree α β) :
    Prop where
  around : HoldsCtx h.nodes (h.roots t) ctx x.root
  tree : Holds h.nodes (ctxUp ctx) x
  ids : (ctxIds ctx ++ x.ids).Perm S
  distinct : S.Nodup

variable {h h' : Heap α β} {t : TreeId} {S : List NodeId} {ctx : Ctx α β} {x y : Tree α β}
  {d : Dir} {i j : NodeId} {c c' : Color} {k k' : α} {v v' : β} {a b e : Tree α β}

theorem Rep.nodup (hr : Rep h t S ctx x) : (ctxIds ctx ++ x.ids).Nodup :=
  hr.ids.nodup_iff.mpr hr.distinct

theorem Rep.up {f} (hr : Rep h t S (f :: ctx) x) : Rep h t S ctx (f.fill x) := by
  obtain ⟨⟨hf, hsib, hctx⟩, htree, hids, hdistinct⟩ := hr
  refine ⟨?_, holds_mk.mpr ⟨hf, htree, hsib⟩, ?_, hdistinct⟩
  · rw [Frame.fill, Tree.root_mk]
    exact hctx
  · exact ((plug_ids ctx (f.fill x)).symm.trans (plug_ids (f :: ctx) x)).trans hids

theorem Rep.down {f} (hr : Rep h t S ctx (f.fill x)) : Rep h t S (f :: ctx) x := by
  obtain ⟨hctx, htree, hids, hdistinct⟩ := hr
  obtain ⟨hf, hx, hsib⟩ := holds_mk.mp htree
  rw [Frame.fill, Tree.root_mk] at hctx
  refine ⟨⟨hf, hsib, hctx⟩, hx, ?_, hdistinct⟩
  exact ((plug_ids (f :: ctx) x).symm.trans (plug_ids ctx (f.fill x))).trans hids

section
variable (hr : Rep h t S ctx (Tree.mk d i c k v a b))
include hr

theorem Rep.down_mk : Rep h t S (⟨d, i, c, k, v, b⟩ :: ctx) a :=
  Rep.down hr

theorem Rep.down_mk_neg : Rep h t S (⟨d.neg, i, c, k, v, a⟩ :: ctx) b := by
  refine Rep.down ?_
  rw [Frame.fill, Tree.mk_neg]
  exact hr

theorem Rep.node : h.nodes i = Node.ofLinks d k v (ctxUp ctx) a.root b.root c :=
  (holds_mk.mp hr.tree).1

end

theorem Rep.change (hr : Rep h t S ctx x) (hroot : y.root = x.root) (hroots : h'.roots = h.roots)
    (hout : ∀ i, i ∉ x.ids → h'.nodes i = h.nodes i) (htree : Holds h'.nodes (ctxUp ctx) y)
    (hids : y.ids = x.ids) : Rep h' t S ctx y := by
  refine ⟨?_, htree, hids.symm ▸ hr.ids, hr.distinct⟩
  rw [hroot, hroots]
  refine hr.around.frame fun i hi => hout i fun hx => ?_
  exact (List.nodup_append.mp hr.nodup).2.2 i hi i hx rfl

/-- A change that leaves all other nodes, and all other trees, as they are. -/
structure Within (S : List NodeId) (t : TreeId) (h h' : Heap α β) : Prop where
  nodes : ∀ i ∉ S, h'.nodes i = h.nodes i
  roots : ∀ t', t' ≠ t → h'.roots t' = h.roots t'
  nodeCount : h'.nodeCount = h.nodeCount
  treeCount : h'.treeCount = h.treeCount

theorem Within.refl (S t) (h : Heap α β) : Within S t h h :=
  ⟨fun _ _ => rfl, fun _ _ => rfl, rfl, rfl⟩

theorem Within.trans {h''} (h1 : Within S t h h') (h2 : Within S t h' h'') : Within S t h h'' :=
  ⟨fun i hi => (h2.nodes i hi).trans (h1.nodes i hi),
    fun t' ht => (h2.roots t' ht).trans (h1.roots t' ht), h2.nodeCount.trans h1.nodeCount,
    h2.treeCount.trans h1.treeCount⟩

theorem within_modify (hi : i ∈ S) (t) (h : Heap α β) (f) : Within S t h (h.modify i f) := by
  refine ⟨fun j hj => ?_, fun _ _ => rfl, rfl, rfl⟩
  exact Function.update_of_ne (fun hji => hj (by rw [hji]; exact hi)) _ _

theorem within_setColor (hi : i ∈ S) (t) (h : Heap α β) (c) : Within S t h (h.setColor i c) :=
  within_modify hi t h _

theorem Rep.mem_ids (hr : Rep h t S ctx (Tree.mk d i c k v a b)) : i ∈ S :=
  hr.ids.mem_iff.mp (mem_append_right _
    ((Tree.ids_mk d i c k v a b).mem_iff.mpr mem_cons_self))

theorem Rep.setColor (hr : Rep h t S ctx (Tree.mk d i c k v a b)) (c' : Color) :
    Rep (h.setColor i c') t S ctx (Tree.mk d i c' k v a b) := by
  obtain ⟨hi, ha, hb⟩ := holds_mk.mp hr.tree
  have hids : (Tree.mk d i c' k v a b).ids = (Tree.mk d i c k v a b).ids := by cases d <;> rfl
  have hnodup := (List.nodup_append.mp hr.nodup).2.1
  obtain ⟨hnot, -⟩ := List.nodup_cons.mp ((Tree.ids_mk d i c k v a b).nodup_iff.mp hnodup)
  have hout : ∀ j, j ≠ i → (h.setColor i c').nodes j = h.nodes j := fun j hj =>
    Function.update_of_ne hj _ _
  refine hr.change (by simp) rfl ?_ ?_ hids
  · intro j hj
    refine hout j fun hji => hj ?_
    rw [hji]
    exact (Tree.ids_mk d i c k v a b).mem_iff.mpr mem_cons_self
  · refine holds_mk.mpr ⟨?_, ha.frame ?_, hb.frame ?_⟩
    · show Function.update h.nodes i _ i = _
      rw [Function.update_self, hi]
      cases d <;> rfl
    · exact fun j hj => hout j fun hji => hnot (hji ▸ mem_append_left _ hj)
    · exact fun j hj => hout j fun hji => hnot (hji ▸ mem_append_right _ hj)

/-! ## Rotations -/

@[simp] theorem modify_self (h : Heap α β) (i f) : (h.modify i f).nodes i = f (h.nodes i) :=
  Function.update_self ..

theorem modify_of_ne (h : Heap α β) {i j} (hji : j ≠ i) (f) : (h.modify i f).nodes j = h.nodes j :=
  Function.update_of_ne hji _ _

theorem Holds.modify {up} (hx : Holds h.nodes up x) (hi : i ∉ x.ids) (f) :
    Holds (h.modify i f).nodes up x :=
  hx.frame fun j hj => modify_of_ne h (fun hji : j = i => hi (hji ▸ hj)) f

theorem HoldsCtx.modify {root hole} (hctx : HoldsCtx h.nodes root ctx hole) (hi : i ∉ ctxIds ctx)
    (f) : HoldsCtx (h.modify i f).nodes root ctx hole :=
  hctx.frame fun j hj => modify_of_ne h (fun hji : j = i => hi (hji ▸ hj)) f

theorem ofLinks_setLink (d : Dir) (k : α) (v : β) (up a b l : Option NodeId) (c : Color) :
    (Node.ofLinks d k v up a b c).setLink d l = Node.ofLinks d k v up l b c := by cases d <;> rfl

theorem ofLinks_setLink_neg (d : Dir) (k : α) (v : β) (up a b l : Option NodeId) (c : Color) :
    (Node.ofLinks d k v up a b c).setLink d.neg l = Node.ofLinks d k v up a l c := by
  cases d <;> rfl

@[simp] theorem ofLinks_link (d : Dir) (k : α) (v : β) (up a b : Option NodeId) (c : Color) :
    (Node.ofLinks d k v up a b c).link d = a := by cases d <;> rfl

@[simp] theorem ofLinks_link_neg (d : Dir) (k : α) (v : β) (up a b : Option NodeId) (c : Color) :
    (Node.ofLinks d k v up a b c).link d.neg = b := by cases d <;> rfl

@[simp] theorem ofLinks_up (d : Dir) (k : α) (v : β) (up a b : Option NodeId) (c : Color) :
    (Node.ofLinks d k v up a b c).up = up := by cases d <;> rfl

@[simp] theorem ofLinks_color (d : Dir) (k : α) (v : β) (up a b : Option NodeId) (c : Color) :
    (Node.ofLinks d k v up a b c).color = c := by cases d <;> rfl

theorem ofLinks_setUp (d : Dir) (k : α) (v : β) (up a b up' : Option NodeId) (c : Color) :
    { Node.ofLinks d k v up a b c with up := up' } = Node.ofLinks d k v up' a b c := by
  cases d <;> rfl

def Heap.setUp? (h : Heap α β) (x : Option NodeId) (up : Option NodeId) : Heap α β :=
  match x with
  | some x => h.setUp x up
  | none => h

theorem Tree.root_mem {x : Tree α β} (hx : x.root = some i) : i ∈ x.ids := by
  cases x with
  | leaf => exact absurd hx (Option.some_ne_none i).symm
  | node j c k v l r =>
    obtain rfl : j = i := Option.some.inj hx
    exact mem_cons_self

theorem setUp?_of_notMem (h : Heap α β) {up} (hi : i ∉ x.ids) :
    (h.setUp? x.root up).nodes i = h.nodes i := by
  cases hx : x.root with
  | none => rfl
  | some j =>
    exact modify_of_ne h (fun hij : i = j => hi (hij ▸ Tree.root_mem hx)) fun n => { n with up }

theorem Holds.setUp? {up up'} (hx : Holds h.nodes up x) (hnodup : x.ids.Nodup) :
    Holds (h.setUp? x.root up').nodes up' x := by
  cases x with
  | leaf => trivial
  | node i c k v l r =>
    obtain ⟨hi, hl, hr⟩ := hx
    obtain ⟨hnot, -⟩ := List.nodup_cons.mp hnodup
    refine ⟨?_, hl.modify (fun hm => hnot (mem_append_left _ hm)) _,
      hr.modify (fun hm => hnot (mem_append_right _ hm)) _⟩
    show (h.setUp i up').nodes i = _
    rw [Heap.setUp, modify_self, hi]

theorem HoldsCtx.replaceChild (hctx : HoldsCtx h.nodes (h.roots t) ctx (some i))
    (hi : i ∉ ctxIds ctx) (hnodup : (ctxIds ctx).Nodup) (d y) :
    HoldsCtx (h.replaceChild t (ctxUp ctx) d i y).nodes
      ((h.replaceChild t (ctxUp ctx) d i y).roots t) ctx y ∧
    Within (ctxIds ctx) t h (h.replaceChild t (ctxUp ctx) d i y) := by
  cases ctx with
  | nil =>
    refine ⟨Function.update_self .., fun _ _ => rfl, ?_, rfl, rfl⟩
    exact fun t' ht' => Function.update_of_ne ht' _ _
  | cons f ctx =>
    obtain ⟨hf, hsib, hctx⟩ := hctx
    have hids : ctxIds (f :: ctx) = f.i :: (f.sib.ids ++ ctxIds ctx) := by
      rw [ctxIds, flatMap_cons]
      rfl
    rw [hids] at hi hnodup ⊢
    obtain ⟨hfnot, hrest⟩ := List.nodup_cons.mp hnodup
    have hsibroot : f.sib.root ≠ some i := fun hs =>
      hi (mem_cons_of_mem _ (mem_append_left _ (Tree.root_mem hs)))
    have heq : h.replaceChild t (ctxUp (f :: ctx)) d i y = h.setLink f.i f.d y := by
      show (if (h.nodes f.i).link d = some i then h.setLink f.i d y
        else h.setLink f.i d.neg y) = _
      by_cases hd : d = f.d
      · rw [hd, if_pos (by rw [hf, ofLinks_link])]
      · have hneg : d.neg = f.d := by
          cases d <;> cases hfd : f.d <;> simp_all [Dir.neg]
        rw [if_neg, hneg]
        rw [← Dir.neg_neg d, hneg, hf, ofLinks_link_neg]
        exact hsibroot
    rw [heq]
    refine ⟨⟨?_, hsib.modify (fun hm => hfnot (mem_append_left _ hm)) _,
      hctx.modify (fun hm => hfnot (mem_append_right _ hm)) _⟩,
      within_modify mem_cons_self t h _⟩
    show (h.modify f.i _).nodes f.i = _
    rw [modify_self, hf, ofLinks_setLink]

theorem rotate_eq (hx : (h.nodes i).link d.neg = some j) :
    h.rotate t i d =
      .ok ((((((h.setLink i d.neg ((h.nodes j).link d)).setUp? ((h.nodes j).link d)
          (some i)).setUp j
        (((h.setLink i d.neg ((h.nodes j).link d)).setUp? ((h.nodes j).link d) (some i)).nodes
          i).up).replaceChild t
        (((h.setLink i d.neg ((h.nodes j).link d)).setUp? ((h.nodes j).link d) (some i)).nodes i).up
        d i (some j)).setLink j d (some i)).setUp i (some j)) := by
  rw [Heap.rotate, hx]
  rfl

theorem Rep.rotate (hr : Rep h t S ctx (Tree.mk d i c k v a (Tree.mk d j c' k' v' b e))) :
    ∃ h', h.rotate t i d = .ok h' ∧
      Rep h' t S ctx (Tree.mk d j c' k' v' (Tree.mk d i c k v a b) e) ∧ Within S t h h' := by
  have hnodup := hr.nodup
  obtain ⟨hctx, htree, hids, hdistinct⟩ := hr
  obtain ⟨hi, ha, hrest⟩ := holds_mk.mp htree
  obtain ⟨hj, hb, he⟩ := holds_mk.mp hrest
  rw [Tree.root_mk] at hi hctx
  -- the nodes are all different
  have hperm : (ctxIds ctx ++ (Tree.mk d i c k v a (Tree.mk d j c' k' v' b e)).ids).Perm
      (i :: j :: (ctxIds ctx ++ a.ids ++ b.ids ++ e.ids)) := by
    rw [List.perm_iff_count]
    intro n
    cases d <;> simp only [Tree.mk, Tree.ids, List.count_cons, List.count_append] <;> omega
  have hperm' : (ctxIds ctx ++ (Tree.mk d j c' k' v' (Tree.mk d i c k v a b) e).ids).Perm
      (i :: j :: (ctxIds ctx ++ a.ids ++ b.ids ++ e.ids)) := by
    rw [List.perm_iff_count]
    intro n
    cases d <;> simp only [Tree.mk, Tree.ids, List.count_cons, List.count_append] <;> omega
  have hall := hperm.nodup_iff.mp hnodup
  obtain ⟨hinot, hall'⟩ := List.nodup_cons.mp hall
  obtain ⟨hjnot, hlists⟩ := List.nodup_cons.mp hall'
  obtain ⟨habc, hen, hde⟩ := List.nodup_append.mp hlists
  obtain ⟨hab, hbn, hdb⟩ := List.nodup_append.mp habc
  obtain ⟨hcn, han, hda⟩ := List.nodup_append.mp hab
  have hij : i ≠ j := fun heq => hinot (heq ▸ mem_cons_self)
  have hi' : i ∉ ctxIds ctx ∧ i ∉ a.ids ∧ i ∉ b.ids ∧ i ∉ e.ids := by
    simpa [hij, not_or, and_assoc] using hinot
  have hj' : j ∉ ctxIds ctx ∧ j ∉ a.ids ∧ j ∉ b.ids ∧ j ∉ e.ids := by
    simpa [not_or, and_assoc] using hjnot
  rw [rotate_eq (show (h.nodes i).link d.neg = some j by rw [hi, ofLinks_link_neg]),
    show (h.nodes j).link d = b.root by rw [hj, ofLinks_link]]
  generalize hh1 : h.setLink i d.neg b.root = h1
  generalize hh2 : h1.setUp? b.root (some i) = h2
  have hn1 : ∀ n, n ≠ i → h1.nodes n = h.nodes n := fun n hn => by
    rw [← hh1]
    exact modify_of_ne h hn _
  have hn2 : ∀ n, n ∉ b.ids → h2.nodes n = h1.nodes n := fun n hn => by
    rw [← hh2]
    exact setUp?_of_notMem h1 hn
  have hi2 : h2.nodes i = Node.ofLinks d k v (ctxUp ctx) a.root b.root c := by
    rw [hn2 i hi'.2.2.1, ← hh1, Heap.setLink, modify_self, hi, ofLinks_setLink_neg]
  have hroots2 : h2.roots = h.roots := by
    rw [← hh2, ← hh1]
    cases b <;> rfl
  rw [hi2, ofLinks_up]
  generalize hh3 : h2.setUp j (ctxUp ctx) = h3
  have hn3 : ∀ n, n ≠ j → h3.nodes n = h2.nodes n := fun n hn => by
    rw [← hh3]
    exact modify_of_ne h2 hn _
  have hj3 : h3.nodes j = Node.ofLinks d k' v' (ctxUp ctx) b.root e.root c' := by
    rw [← hh3, Heap.setUp, modify_self, hn2 j hj'.2.2.1, hn1 j hij.symm, hj, ofLinks_setUp]
  have hsame3 : ∀ n, n ≠ i → n ≠ j → n ∉ b.ids → h3.nodes n = h.nodes n := fun n hni hnj hnb => by
    rw [hn3 n hnj, hn2 n hnb, hn1 n hni]
  have hctx3 : HoldsCtx h3.nodes (h3.roots t) ctx (some i) := by
    have hroots3 : h3.roots = h.roots := by rw [← hh3, ← hroots2]; rfl
    rw [hroots3]
    refine hctx.frame fun n hn => hsame3 n ?_ ?_ ?_
    · exact fun heq => hi'.1 (heq ▸ hn)
    · exact fun heq => hj'.1 (heq ▸ hn)
    · exact fun hnb => hdb n (mem_append_left _ hn) n hnb rfl
  obtain ⟨hctx4, hwithin4⟩ := hctx3.replaceChild hi'.1 hcn d (some j)
  generalize hh4 : h3.replaceChild t (ctxUp ctx) d i (some j) = h4 at *
  have hn4 : ∀ n, n ∉ ctxIds ctx → h4.nodes n = h3.nodes n := hwithin4.nodes
  have hn6 : ∀ n, n ≠ i → n ≠ j →
      ((h4.setLink j d (some i)).setUp i (some j)).nodes n = h4.nodes n := fun n hni hnj =>
    (modify_of_ne _ hni _).trans (modify_of_ne _ hnj _)
  have hsame6 : ∀ n, n ≠ i → n ≠ j → n ∉ b.ids → n ∉ ctxIds ctx →
      ((h4.setLink j d (some i)).setUp i (some j)).nodes n = h.nodes n := by
    intro n hni hnj hnb hnc
    rw [hn6 n hni hnj, hn4 n hnc, hsame3 n hni hnj hnb]
  refine ⟨_, rfl, ⟨?_, ?_, (hperm'.trans hperm.symm).trans hids, hdistinct⟩, ?_⟩
  · rw [Tree.root_mk]
    exact (hctx4.modify hj'.1 _).modify hi'.1 _
  · refine holds_mk.mpr ⟨?_, holds_mk.mpr ⟨?_, ha.frame ?_, ?_⟩, he.frame ?_⟩
    · rw [Heap.setUp, modify_of_ne _ hij.symm, Heap.setLink, modify_self, hn4 j hj'.1, hj3,
        ofLinks_setLink, Tree.root_mk]
    · rw [Heap.setUp, modify_self, Heap.setLink, modify_of_ne _ hij, hn4 i hi'.1, hn3 i hij, hi2,
        ofLinks_setUp]
    · intro n hn
      refine hsame6 n ?_ ?_ ?_ ?_
      · exact fun heq => hi'.2.1 (heq ▸ hn)
      · exact fun heq => hj'.2.1 (heq ▸ hn)
      · exact fun hnb => hdb n (mem_append_right _ hn) n hnb rfl
      · exact fun hnc => hda n hnc n hn rfl
    · have hb2 : Holds h2.nodes (some i) b := by
        rw [← hh2]
        refine Holds.setUp? (?_ : Holds h1.nodes (some j) b) hbn
        rw [← hh1]
        exact hb.modify hi'.2.2.1 _
      refine hb2.frame fun n hn => ?_
      have hnj : n ≠ j := fun heq => hj'.2.2.1 (heq ▸ hn)
      have hni : n ≠ i := fun heq => hi'.2.2.1 (heq ▸ hn)
      have hnc : n ∉ ctxIds ctx := fun hnc => hdb n (mem_append_left _ hnc) n hn rfl
      rw [hn6 n hni hnj, hn4 n hnc, hn3 n hnj]
    · intro n hn
      refine hsame6 n ?_ ?_ ?_ ?_
      · exact fun heq => hi'.2.2.2 (heq ▸ hn)
      · exact fun heq => hj'.2.2.2 (heq ▸ hn)
      · exact fun hnb => hde n (mem_append_right _ hnb) n hn rfl
      · exact fun hnc => hde n (mem_append_left _ (mem_append_left _ hnc)) n hn rfl
  · refine ⟨fun n hn => ?_, fun t' ht' => ?_, ?_, ?_⟩
    · have hn' := mt (hids.symm.trans hperm).mem_iff.mpr hn
      simp only [List.mem_cons, List.mem_append, not_or] at hn'
      exact hsame6 n hn'.1 hn'.2.1 hn'.2.2.1.2 hn'.2.2.1.1.1
    · show h4.roots t' = _
      rw [hwithin4.roots t' ht', ← hh3, ← hroots2]
      rfl
    · show h4.nodeCount = _
      rw [hwithin4.nodeCount, ← hh3, ← hh2, ← hh1]
      cases b <;> rfl
    · show h4.treeCount = _
      rw [hwithin4.treeCount, ← hh3, ← hh2, ← hh1]
      cases b <;> rfl

/-! ## Colors and heights -/

/-- A red-black tree with a root of this color (leaves are black) and this many black nodes
on each path. -/
inductive RB : Tree α β → Color → Nat → Prop
  | leaf : RB .leaf .black 0
  | red {i : NodeId} {k : α} {v : β} {l r : Tree α β} {n : Nat} :
    RB l .black n → RB r .black n → RB (.node i .red k v l r) .red n
  | black {i : NodeId} {k : α} {v : β} {l r : Tree α β} {c c' : Color} {n : Nat} :
    RB l c n → RB r c' n → RB (.node i .black k v l r) .black (n + 1)

/-- What a tree of this color and height can be put in, to give a tree with a black root. -/
inductive CtxOk : Ctx α β → Color → Nat → Prop
  | nil {n : Nat} : CtxOk [] .black n
  | red {f : Frame α β} {ctx : Ctx α β} {n : Nat} :
    f.c = .red → RB f.sib .black n → CtxOk ctx .red n → CtxOk (f :: ctx) .black n
  | black {f : Frame α β} {ctx : Ctx α β} {c c' : Color} {n : Nat} :
    f.c = .black → RB f.sib c' n → CtxOk ctx .black (n + 1) → CtxOk (f :: ctx) c n

variable {n m : Nat}

theorem RB.color_eq (hx : RB x c n) : x.color = c := by
  cases hx with
  | leaf => rfl
  | red => rfl
  | black => rfl

theorem rb_red (ha : RB a .black n) (hb : RB b .black n) :
    RB (Tree.mk d i .red k v a b) .red n := by
  cases d with
  | left => exact .red ha hb
  | right => exact .red hb ha

theorem rb_black (ha : RB a c n) (hb : RB b c' n) :
    RB (Tree.mk d i .black k v a b) .black (n + 1) := by
  cases d with
  | left => exact .black ha hb
  | right => exact .black hb ha

theorem RB.red_inv (hx : RB (Tree.mk d i .red k v a b) c n) :
    c = .red ∧ RB a .black n ∧ RB b .black n := by
  cases d with
  | left =>
    cases hx with
    | red ha hb => exact ⟨rfl, ha, hb⟩
  | right =>
    cases hx with
    | red hb ha => exact ⟨rfl, ha, hb⟩

theorem RB.black_inv (hx : RB (Tree.mk d i .black k v a b) c n) :
    c = .black ∧ ∃ m ca cb, n = m + 1 ∧ RB a ca m ∧ RB b cb m := by
  cases d with
  | left =>
    cases hx with
    | black ha hb => exact ⟨rfl, _, _, _, rfl, ha, hb⟩
  | right =>
    cases hx with
    | black hb ha => exact ⟨rfl, _, _, _, rfl, ha, hb⟩

theorem CtxOk.of_red (hctx : CtxOk ctx .red n) (c) : CtxOk ctx c n := by
  cases hctx with
  | black hf hsib hctx => exact .black hf hsib hctx

theorem plug_rb {ctx} : ∀ {x : Tree α β} {c : Color} {n : Nat}, RB x c n →
    CtxOk ctx c n → ∃ m, RB (plug ctx x) .black m := by
  induction ctx with
  | nil =>
    intro x c n hx hctx
    cases hctx with
    | nil => exact ⟨n, hx⟩
  | cons f ctx ih =>
    intro x c n hx hctx
    cases hctx with
    | red hf hsib hctx =>
      refine ih ?_ hctx
      rw [Frame.fill, hf]
      exact rb_red hx hsib
    | black hf hsib hctx =>
      refine ih ?_ hctx
      rw [Frame.fill, hf]
      exact rb_black hx hsib

/-! ## The pairs in order -/

def lefts : Ctx α β → List (α × β)
  | [] => []
  | f :: ctx =>
    lefts ctx ++ match f.d with
      | .left => []
      | .right => f.sib.toList ++ [(f.k, f.v)]

def rights : Ctx α β → List (α × β)
  | [] => []
  | f :: ctx =>
    (match f.d with
      | .left => (f.k, f.v) :: f.sib.toList
      | .right => []) ++ rights ctx

theorem plug_toList (ctx) : ∀ x : Tree α β,
    (plug ctx x).toList = lefts ctx ++ x.toList ++ rights ctx := by
  induction ctx with
  | nil =>
    intro x
    rw [plug, lefts, rights, List.nil_append, List.append_nil]
  | cons f ctx ih =>
    intro x
    rw [plug, ih, Frame.fill, lefts, rights]
    cases hd : f.d <;> simp [Tree.mk, Tree.toList]

theorem rotate_toList (d : Dir) (i j : NodeId) (c c' : Color) (k k' : α) (v v' : β)
    (a b e : Tree α β) :
    (Tree.mk d j c' k' v' (Tree.mk d i c k v a b) e).toList =
      (Tree.mk d i c k v a (Tree.mk d j c' k' v' b e)).toList := by
  cases d <;> simp [Tree.mk, Tree.toList]

theorem color_toList (d : Dir) (i : NodeId) (c c' : Color) (k : α) (v : β) (a b : Tree α β) :
    (Tree.mk d i c k v a b).toList = (Tree.mk d i c' k v a b).toList := by
  cases d <;> rfl

theorem mk_toList_congr {a' b'} (ha : a'.toList = a.toList) (hb : b'.toList = b.toList) :
    (Tree.mk d i c k v a' b').toList = (Tree.mk d i c' k v a b).toList := by
  cases d <;> simp [Tree.mk, Tree.toList, ha, hb]

theorem plug_toList_congr (hxy : y.toList = x.toList) :
    (plug ctx y).toList = (plug ctx x).toList := by
  rw [plug_toList, plug_toList, hxy]

/-! ## Moving the focus -/

theorem Rep.toRoot {ctx} : ∀ {x : Tree α β}, Rep h t S ctx x →
    Rep h t S [] (plug ctx x) := by
  induction ctx with
  | nil => exact fun hr => hr
  | cons f ctx ih => exact fun hr => ih hr.up

theorem Tree.mk_ne_leaf : Tree.mk d i c k v a b ≠ .leaf := by
  intro heq
  have hroot := congrArg Tree.root heq
  rw [Tree.root_mk] at hroot
  exact Option.some_ne_none i hroot

theorem plug_ne_leaf {ctx} : ∀ {x : Tree α β}, x ≠ .leaf → plug ctx x ≠ .leaf := by
  induction ctx with
  | nil => exact fun hx => hx
  | cons f ctx ih => exact fun _ => ih Tree.mk_ne_leaf

theorem exists_mk (d : Dir) (i : NodeId) (c : Color) (k : α) (v : β) (l r : Tree α β) :
    ∃ a b, Tree.node i c k v l r = Tree.mk d i c k v a b := by
  cases d with
  | left => exact ⟨l, r, rfl⟩
  | right => exact ⟨r, l, rfl⟩

theorem Rep.parent {f} (hr : Rep h t S (f :: ctx) x) :
    h.nodes f.i = Node.ofLinks f.d f.k f.v (ctxUp ctx) x.root f.sib.root f.c :=
  hr.around.1

theorem Rep.sib_root_ne {f : Frame α β} (hr : Rep h t S (f :: ctx) x) (hx : x.root = some i) :
    f.sib.root ≠ some i := by
  intro hs
  have hnodup := hr.nodup
  rw [ctxIds, flatMap_cons] at hnodup
  refine (List.nodup_append.mp hnodup).2.2 i ?_ i (Tree.root_mem hx) rfl
  exact mem_append_left _ (mem_cons_of_mem _ (Tree.root_mem hs))

theorem Rep.up_root (hr : Rep h t S ctx x) (hx : x.root = some i) :
    (h.nodes i).up = ctxUp ctx := by
  cases x with
  | leaf => exact absurd hx (Option.some_ne_none i).symm
  | node j c k v l r =>
    obtain rfl : j = i := Option.some.inj hx
    rw [hr.tree.1]

theorem Rep.side {f} (hr : Rep h t S (f :: ctx) x) (hx : x.root = some i) :
    bToD (decide ((h.nodes f.i).left = some i)) = f.d := by
  rw [hr.parent, hx]
  cases hd : f.d with
  | left => simp [Node.ofLinks, bToD]
  | right => simp [Node.ofLinks, bToD, hr.sib_root_ne hx]

theorem Rep.setSibColor {f} (hr : Rep h t S (f :: ctx) x) (c')
    (hsib : f.sib = Tree.mk d j c k v a b) :
    Rep (h.setColor j c') t S ({ f with sib := Tree.mk d j c' k v a b } :: ctx) x := by
  have hup := hr.up
  rw [Frame.fill, ← Dir.neg_neg f.d, Tree.mk_neg, hsib] at hup
  have hcolor := (Rep.down_mk (d := f.d.neg) hup).setColor c'
  have hback := hcolor.up
  rw [Frame.fill] at hback
  exact Rep.down_mk (by rw [← Tree.mk_neg]; exact hback)

end MitScheme.Runtime.RbTree
