import MitScheme.Runtime.RbTreeRead

/-! # Red-black trees: histories

A history denotes a map for each tree it makes, and a run of it keeps each tree a red-black
tree with the pairs of that map. -/

namespace MitScheme.Runtime.RbTree
open Lib.SortedMap Function

variable {α β : Type} {h h' : Heap α β} {t : TreeId} {S : List NodeId} {ctx : Ctx α β}
  {x y : Tree α β} {d : Dir} {i j : NodeId} {c c' : Color} {k k' : α} {v v' : β}
  {a b e : Tree α β} {n m : Nat} {O : KeyOrder α} {key : α} {l r : Tree α β}

/-! ## The other changes -/

theorem dropEnd_plug (hctx : beside d ctx = []) :
    ∃ l r, Tree.mk d i c k v .leaf a = .node i c k v l r ∧
      dropEnd d (plug ctx (Tree.mk d i c k v .leaf a)).toList =
        (lefts ctx ++ l.toList) ++ (r.toList ++ rights ctx) := by
  cases d with
  | left =>
    refine ⟨.leaf, a, rfl, ?_⟩
    show (plug ctx (.node i c k v .leaf a)).toList.tail = _
    rw [plug_node_toList, show lefts ctx = [] from hctx]
    rfl
  | right =>
    refine ⟨a, .leaf, rfl, ?_⟩
    show (plug ctx (.node i c k v a .leaf)).toList.dropLast = _
    rw [plug_node_toList, show rights ctx = [] from hctx]
    simp [Tree.toList]

theorem Good.deleteExtreme (hg : Good O h t S x) (d default) :
    ∃ h' S' y, h.deleteExtreme t d default =
        .ok (((endPair d x.toList).map Prod.fst).getD default, h') ∧
      Good O h' t S' y ∧ y.toList = dropEnd d x.toList ∧ Op t S S' h h' := by
  rcases hg.extremeNode d with ⟨hnode, rfl⟩ | ⟨ctx, i, c, k, v, a, hnode, rfl, hctx⟩
  · refine ⟨h, S, .leaf, ?_, hg, ?_, (Within.refl S t h).op fun _ hi => hi⟩
    · simp only [Heap.deleteExtreme, hnode, bind, Except.bind]
      cases d <;> rfl
    · cases d <;> rfl
  · obtain ⟨l, r, hmk, hdrop⟩ := dropEnd_plug (i := i) (c := c) (k := k) (v := v) (a := a) hctx
    have hkey : (h.nodes i).key = k := by
      rw [hg.rep.focus.node]
      cases d <;> rfl
    obtain ⟨h', S', y, hh', hg', hlist, hop⟩ := hg.deleteNode (congrArg (plug ctx) hmk.symm)
    refine ⟨h', S', y, ?_, hg', hlist.trans hdrop.symm, hop⟩
    simp only [Heap.deleteExtreme, hnode, hh', bind, Except.bind]
    rw [endPair_plug hctx, hkey]
    rfl

/-- What `rb-tree/intern!` makes of a map. -/
def internMap (O : KeyOrder α) (l : List (α × β)) (key : α) (fail : β) : List (α × β) :=
  if (find O l key).isSome then l else put O l key fail

/-- What `rb-tree/update!` makes of a map. -/
def updateMap (O : KeyOrder α) (l : List (α × β)) (key : α) (updater : β → β) (fail : Option β)
    (succeed : Option (β → β)) : List (α × β) :=
  match find O l key with
  | some p => put O l key (updater (Heap.applySucceed succeed p.2))
  | none =>
    match fail with
    | some datum => put O l key (updater datum)
    | none => l

theorem Good.intern (hg : Good O h t S x) (key fail) :
    ∃ h' S' y, h.intern O t key fail =
        .ok (((find O x.toList key).map Prod.snd).getD fail, h') ∧
      Good O h' t S' y ∧ y.toList = internMap O x.toList key fail ∧ Op t S S' h h' := by
  rcases hg.findNode key with ⟨ctx, hfind, hs, hx⟩ | ⟨ctx, i, c, k, v, l, r, hfind, hs, heq, hx⟩
  · obtain ⟨h', S', y, hh', hg', hlist, hop⟩ := hg.insert key fail
    have hnone : find O x.toList key = none := by
      rw [← hx, plug_leaf_toList, hs.around.find_none]
    refine ⟨h', S', y, ?_, hg', ?_, hop⟩
    · simp only [Heap.intern, hfind, hh', bind, Except.bind]
      rw [hnone]
      rfl
    · rw [hlist, internMap, hnone]
      rfl
  · have hsome : find O x.toList key = some (k, v) := by
      rw [← hx, plug_node_toList, (hs.around_node heq).find_some heq]
    refine ⟨h, S, x, ?_, hg, ?_, (Within.refl S t h).op fun _ hi => hi⟩
    · simp only [Heap.intern, hfind, bind, Except.bind]
      rw [hsome, hs.rep.tree.1]
      rfl
    · rw [internMap, hsome]
      rfl

theorem Good.update (hg : Good O h t S x) (key updater fail succeed) :
    (∃ h' S' y, h.update O t key updater fail succeed = .ok h' ∧ Good O h' t S' y ∧
      y.toList = updateMap O x.toList key updater fail succeed ∧ Op t S S' h h') ∨
    (h.update O t key updater fail succeed = .error .badRange ∧
      updateMap O x.toList key updater fail succeed = x.toList) := by
  rcases hg.findNode key with ⟨ctx, hfind, hs, hx⟩ | ⟨ctx, i, c, k, v, l, r, hfind, hs, heq, hx⟩
  · have hnone : find O x.toList key = none := by
      rw [← hx, plug_leaf_toList, hs.around.find_none]
    simp only [Heap.update, updateMap, hnone, hfind, bind, Except.bind]
    cases fail with
    | none => exact .inr ⟨rfl, rfl⟩
    | some datum => exact .inl (hg.insert key (updater datum))
  · have hsome : find O x.toList key = some (k, v) := by
      rw [← hx, plug_node_toList, (hs.around_node heq).find_some heq]
    simp only [Heap.update, updateMap, hsome, hfind, bind, Except.bind]
    have hf : updater (Heap.applySucceed succeed (h.nodes i).datum) =
        updater (Heap.applySucceed succeed v) := by rw [hs.rep.tree.1]
    obtain ⟨hg', hlist, hop⟩ := hs.setDatum heq hg.bound
      (fun n => { n with datum := updater (Heap.applySucceed succeed n.datum) })
      (congrArg (fun datum => { h.nodes i with datum }) hf)
    rw [hx] at hlist
    exact .inl ⟨_, S, _, rfl, hg', hlist, hop⟩

theorem good_clear (O) (h : Heap α β) (t S) :
    Good O (h.clear t) t [] .leaf ∧ Op t S [] h (h.clear t) := by
  refine ⟨⟨⟨update_self .., trivial, List.Perm.refl _, List.nodup_nil⟩, ⟨0, .leaf⟩,
    List.Pairwise.nil, fun i hi => absurd hi List.not_mem_nil⟩, ⟨fun _ _ _ => rfl, ?_,
    Nat.le_refl _, rfl, fun i hi => absurd hi List.not_mem_nil⟩⟩
  exact fun t' ht' => update_of_ne ht' _ _

/-! ## All the trees -/

/-- The maps that a history denotes, one for each tree it has made. -/
structure Maps (α β : Type) where
  count : Nat
  map : TreeId → List (α × β)

namespace Maps

def empty : Maps α β := ⟨0, fun _ => []⟩

def set (M : Maps α β) (t : TreeId) (l : List (α × β)) : Maps α β :=
  { M with map := update M.map t l }

def add (M : Maps α β) (l : List (α × β)) : Maps α β :=
  ⟨M.count + 1, update M.map M.count l⟩

def change (M : Maps α β) (t : TreeId) (f : List (α × β) → List (α × β)) : Option (Maps α β) :=
  if t < M.count then some (M.set t (f (M.map t))) else none

/-- `none` when the tree does not exist. -/
def step (O : KeyOrder α) (M : Maps α β) : Action α β → Option (Maps α β)
  | .make => some (M.add [])
  | .insert t key datum => M.change t fun l => put O l key datum
  | .delete t key => M.change t fun l => remove O l key
  | .update t key updater fail succeed =>
    M.change t fun l => updateMap O l key updater fail succeed
  | .intern t key fail => M.change t fun l => internMap O l key fail
  | .deleteMin t _ => M.change t List.tail
  | .deleteMax t _ => M.change t List.dropLast
  | .copy t => if t < M.count then some (M.add (M.map t)) else none
  | .clear t => M.change t fun _ => []

@[simp] theorem set_self (M : Maps α β) (t l) : (M.set t l).map t = l :=
  update_self ..

theorem set_of_ne (M : Maps α β) {t t'} (hne : t' ≠ t) (l) : (M.set t l).map t' = M.map t' :=
  update_of_ne hne _ _

@[simp] theorem add_self (M : Maps α β) (l) : (M.add l).map M.count = l :=
  update_self ..

theorem add_of_ne (M : Maps α β) {t} (hne : t ≠ M.count) (l) : (M.add l).map t = M.map t :=
  update_of_ne hne _ _

def run (O : KeyOrder α) : Maps α β → List (Action α β) → Option (Maps α β)
  | M, [] => some M
  | M, action :: actions => (M.step O action).bind fun M => run O M actions

end Maps

/-- Each tree is a red-black tree with the pairs of its map, and no two share a node. -/
structure World (O : KeyOrder α) (h : Heap α β) (M : Maps α β) : Prop where
  count : h.treeCount = M.count
  trees : ∃ (S : TreeId → List NodeId) (x : TreeId → Tree α β),
    (∀ t < M.count, Good O h t (S t) (x t) ∧ (x t).toList = M.map t) ∧
    ∀ t < M.count, ∀ t' < M.count, t ≠ t' → ∀ i ∈ S t, i ∉ S t'

theorem Good.frame (hg : Good O h t S x) (hroot : h'.roots t = h.roots t)
    (hnodes : ∀ i ∈ S, h'.nodes i = h.nodes i) (hcount : h.nodeCount ≤ h'.nodeCount) :
    Good O h' t S x := by
  have hids : ∀ i ∈ x.ids, h'.nodes i = h.nodes i := fun i hi =>
    hnodes i (hg.rep.ids.mem_iff.mp hi)
  refine ⟨⟨hroot.trans hg.rep.around, hg.rep.tree.frame hids, hg.rep.ids, hg.rep.distinct⟩,
    hg.rb, hg.sorted, ?_⟩
  exact fun i hi => Nat.lt_of_lt_of_le (hg.bound i hi) hcount

variable {M M' : Maps α β}

theorem World.change {r} (hw : World O h M) (ht : t < M.count)
    (hop : ∀ S x, Good O h t S x → x.toList = M.map t → ∃ S' y, Good O h' t S' y ∧
      y.toList = r ∧ Op t S S' h h') : World O h' (M.set t r) := by
  obtain ⟨S, x, hgood, hdisjoint⟩ := hw.trees
  obtain ⟨hg, hx⟩ := hgood t ht
  obtain ⟨S', y, hg', hy, hop⟩ := hop (S t) (x t) hg hx
  refine ⟨hop.treeCount.trans hw.count, update S t S', update x t y, ?_, ?_⟩
  · intro t' ht'
    by_cases heq : t' = t
    · subst heq
      rw [update_self, update_self]
      exact ⟨hg', by rw [hy, M.set_self]⟩
    · obtain ⟨hg1, hx1⟩ := hgood t' ht'
      rw [update_of_ne heq, update_of_ne heq]
      refine ⟨hg1.frame (hop.roots t' heq) (fun i hi => ?_) hop.nodeCount, ?_⟩
      · exact hop.nodes i (hg1.bound i hi) (hdisjoint t' ht' t ht heq i hi)
      · rw [hx1, M.set_of_ne heq]
  · have hnew : ∀ t' < M.count, t' ≠ t → ∀ i ∈ S', i ∉ S t' := by
      intro t' ht' hne i hi hi'
      rcases hop.ids i hi with hold | hfresh
      · exact hdisjoint t ht t' ht' (Ne.symm hne) i hold hi'
      · exact Nat.not_lt.mpr hfresh ((hgood t' ht').1.bound i hi')
    intro t1 ht1 t2 ht2 hne i hi
    by_cases h1 : t1 = t
    · subst h1
      rw [update_self] at hi
      rw [update_of_ne (Ne.symm hne)]
      exact hnew t2 ht2 (Ne.symm hne) i hi
    · rw [update_of_ne h1] at hi
      by_cases h2 : t2 = t
      · subst h2
        rw [update_self]
        exact fun hi' => hnew t1 ht1 h1 i hi' hi
      · rw [update_of_ne h2]
        exact hdisjoint t1 ht1 t2 ht2 hne i hi

theorem World.add {S' z} (hw : World O h M) (hroots : ∀ t < M.count, h'.roots t = h.roots t)
    (hnodes : ∀ i < h.nodeCount, h'.nodes i = h.nodes i) (hcount : h.nodeCount ≤ h'.nodeCount)
    (htrees : h'.treeCount = h.treeCount + 1) (hg : Good O h' M.count S' y) (hy : y.toList = z)
    (hnew : ∀ i ∈ S', h.nodeCount ≤ i) : World O h' (M.add z) := by
  obtain ⟨S, x, hgood, hdisjoint⟩ := hw.trees
  have hcases : ∀ t < (M.add z).count, t ≠ M.count → t < M.count := fun t ht hne =>
    Nat.lt_of_le_of_ne (Nat.le_of_lt_succ ht) hne
  refine ⟨by rw [htrees, hw.count]; rfl, update S M.count S',
    update x M.count y, ?_, ?_⟩
  · intro t ht
    by_cases heq : t = M.count
    · subst heq
      rw [update_self, update_self]
      exact ⟨hg, by rw [hy, M.add_self]⟩
    · obtain ⟨hg1, hx1⟩ := hgood t (hcases t ht heq)
      rw [update_of_ne heq, update_of_ne heq]
      refine ⟨hg1.frame (hroots t (hcases t ht heq)) (fun i hi => ?_) hcount, ?_⟩
      · exact hnodes i (hg1.bound i hi)
      · rw [hx1, M.add_of_ne heq]
  · have hfresh : ∀ t < M.count, ∀ i ∈ S', i ∉ S t := fun t ht i hi hi' =>
      Nat.not_lt.mpr (hnew i hi) ((hgood t ht).1.bound i hi')
    intro t1 ht1 t2 ht2 hne i hi
    by_cases h1 : t1 = M.count
    · subst h1
      rw [update_self] at hi
      rw [update_of_ne (Ne.symm hne)]
      exact hfresh t2 (hcases t2 ht2 (Ne.symm hne)) i hi
    · rw [update_of_ne h1] at hi
      by_cases h2 : t2 = M.count
      · subst h2
        rw [update_self]
        exact fun hi' => hfresh t1 (hcases t1 ht1 h1) i hi' hi
      · rw [update_of_ne h2]
        exact hdisjoint t1 (hcases t1 ht1 h1) t2 (hcases t2 ht2 h2) hne i hi

theorem World.makeRbTree (hw : World O h M) : World O h.makeRbTree (M.add []) := by
  refine hw.add (y := .leaf) (fun t ht => ?_) (fun _ _ => rfl) (Nat.le_refl _) rfl
    ⟨⟨?_, trivial, List.Perm.refl [], List.nodup_nil⟩, ⟨0, .leaf⟩, List.Pairwise.nil, ?_⟩ rfl ?_
  · exact update_of_ne (hw.count ▸ Nat.ne_of_lt ht) _ _
  · rw [← hw.count]
    exact update_self ..
  · exact fun i hi => absurd hi List.not_mem_nil
  · exact fun i hi => absurd hi List.not_mem_nil

theorem World.copy (hw : World O h M) (ht : t < M.count) :
    ∃ h', h.copy t = .ok h' ∧ World O h' (M.add (M.map t)) := by
  obtain ⟨S, x, hgood, -⟩ := hw.trees
  obtain ⟨hg, hx⟩ := hgood t ht
  have hlen := hg.rep.length_le hg.bound
  have hroot : h.makeRbTree.roots t = (x t).root :=
    (update_of_ne (hw.count ▸ Nat.ne_of_lt ht) _ _).trans hg.rep.around
  have hbound : ∀ i ∈ (x t).ids, i < h.makeRbTree.nodeCount := fun i hi =>
    hg.bound i (hg.rep.ids.mem_iff.mp hi)
  have hfuel : (x t).ids.length ≤ h.makeRbTree.fuel := by
    show (x t).ids.length ≤ h.nodeCount + 1
    omega
  obtain ⟨h1, y, hh1, hc⟩ := copyLoop_spec (h := h.makeRbTree) none hg.rep.tree hbound hfuel
  refine ⟨h1.setRoot h.treeCount y.root, ?_, ?_⟩
  · simp only [Heap.copy, hroot, hh1, bind, Except.bind]
  · obtain ⟨n, hn⟩ := hg.rb
    refine hw.add (fun t' ht' => ?_) hc.grows.nodes hc.grows.nodeCount hc.grows.treeCount
      ⟨⟨?_, hc.holds, List.Perm.refl _, hc.distinct⟩, ⟨n, hc.alike.rb hn⟩, ?_, ?_⟩ ?_ ?_
    · have hne : t' ≠ h.treeCount := hw.count ▸ Nat.ne_of_lt ht'
      rw [show (h1.setRoot h.treeCount y.root).roots t' = _ from update_of_ne hne _ _,
        hc.grows.roots]
      exact update_of_ne hne _ _
    · rw [← hw.count]
      exact update_self ..
    · rw [hc.alike.toList]
      exact hg.sorted
    · exact fun i hi => (hc.new i hi).2
    · rw [hc.alike.toList, hx]
    · exact fun i hi => (hc.new i hi).1

theorem change_some {f : List (α × β) → List (α × β)} (hstep : M.change t f = some M') :
    t < M.count ∧ M' = M.set t (f (M.map t)) := by
  rw [Maps.change] at hstep
  by_cases ht : t < M.count
  · rw [if_pos ht] at hstep
    exact ⟨ht, (Option.some.inj hstep).symm⟩
  · rw [if_neg ht] at hstep
    exact absurd hstep (Option.some_ne_none M').symm

theorem World.changes {f : List (α × β) → List (α × β)} {result : Except Fault (Heap α β)}
    (hw : World O h M) (hstep : M.change t f = some M')
    (hop : ∀ S x, Good O h t S x → ∃ h' S' y, result = .ok h' ∧ Good O h' t S' y ∧
      y.toList = f x.toList ∧ Op t S S' h h') : ∃ h', result = .ok h' ∧ World O h' M' := by
  obtain ⟨ht, rfl⟩ := change_some hstep
  obtain ⟨S, x, hgood, -⟩ := hw.trees
  obtain ⟨hg, hx⟩ := hgood t ht
  obtain ⟨h', S', y, hresult, -⟩ := hop (S t) (x t) hg
  refine ⟨h', hresult, hw.change ht fun S x hg hx => ?_⟩
  obtain ⟨h1, S', y, hresult1, hg', hy, hop⟩ := hop S x hg
  obtain rfl : h' = h1 := Except.ok.inj (hresult.symm.trans hresult1)
  exact ⟨S', y, hg', by rw [hy, hx], hop⟩

/-! ## Histories -/

theorem World.update {updater : β → β} {fail : Option β} {succeed : Option (β → β)}
    (hw : World O h M)
    (hstep : M.change t (fun l => updateMap O l key updater fail succeed) = some M') :
    (∃ h', h.update O t key updater fail succeed = .ok h' ∧ World O h' M') ∨
      h.update O t key updater fail succeed = .error .badRange ∧ World O h M' := by
  obtain ⟨ht, hM'⟩ := change_some hstep
  obtain ⟨S, x, hgood, -⟩ := hw.trees
  obtain ⟨hg, hx⟩ := hgood t ht
  rcases hg.update key updater fail succeed with ⟨h', S', y, hh', -⟩ | ⟨herror, hsame⟩
  · refine .inl (hw.changes hstep fun S x hg => ?_)
    rcases hg.update key updater fail succeed with hok | ⟨herror, -⟩
    · exact hok
    · rw [hh'] at herror
      cases herror
  · refine .inr ⟨herror, ?_⟩
    rw [hx] at hsame
    have hM : M' = M := by
      rw [hM', hsame, Maps.set, update_eq_self]
    rw [hM]
    exact hw

theorem map_snd {γ : Type} {result : Except Fault (γ × Heap α β)}
    {P : Heap α β → List NodeId → Tree α β → Prop} {z}
    (hresult : ∃ h' S' y, result = .ok (z, h') ∧ P h' S' y) :
    ∃ h' S' y, result.map Prod.snd = .ok h' ∧ P h' S' y := by
  obtain ⟨h', S', y, hh', hP⟩ := hresult
  refine ⟨h', S', y, ?_, hP⟩
  rw [hh']
  rfl

theorem World.step (hw : World O h M) {action : Action α β} (hstep : M.step O action = some M') :
    (∃ h', h.step O action = .ok h' ∧ World O h' M') ∨
      h.step O action = .error .badRange ∧ World O h M' := by
  cases action with rw [Maps.step] at hstep
  | make =>
    obtain rfl := Option.some.inj hstep
    exact .inl ⟨_, rfl, hw.makeRbTree⟩
  | insert t key datum =>
    exact .inl (hw.changes hstep fun S x hg => hg.insert key datum)
  | delete t key =>
    exact .inl (hw.changes hstep fun S x hg => hg.delete key)
  | update t key updater fail succeed => exact hw.update hstep
  | intern t key fail =>
    exact .inl (hw.changes hstep fun S x hg => map_snd (hg.intern key fail))
  | deleteMin t default =>
    exact .inl (hw.changes hstep fun S x hg => map_snd (hg.deleteExtreme .left default))
  | deleteMax t default =>
    exact .inl (hw.changes hstep fun S x hg => map_snd (hg.deleteExtreme .right default))
  | copy t =>
    by_cases ht : t < M.count
    · rw [if_pos ht] at hstep
      obtain rfl := Option.some.inj hstep
      exact .inl (hw.copy ht)
    · rw [if_neg ht] at hstep
      exact absurd hstep (Option.some_ne_none M').symm
  | clear t =>
    refine .inl (hw.changes hstep fun S x _ => ?_)
    obtain ⟨hg, hop⟩ := good_clear O h t S
    exact ⟨_, [], .leaf, rfl, hg, rfl, hop⟩

theorem World.run {actions} : ∀ {h : Heap α β} {M : Maps α β},
    World O h M → M.run O actions = some M' →
    ∃ h', h.run O actions = .ok h' ∧ World O h' M' := by
  induction actions with
  | nil =>
    intro h M hw hrun
    obtain rfl := Option.some.inj hrun
    exact ⟨h, rfl, hw⟩
  | cons action actions ih =>
    intro h M hw hrun
    obtain ⟨M1, hstep, hrest⟩ := Option.bind_eq_some_iff.mp hrun
    rcases hw.step hstep with ⟨h1, hh1, hw1⟩ | ⟨herror, hw1⟩
    · obtain ⟨h', hh', hw'⟩ := ih hw1 hrest
      exact ⟨h', by rw [Heap.run, hh1]; exact hh', hw'⟩
    · obtain ⟨h', hh', hw'⟩ := ih hw1 hrest
      exact ⟨h', by rw [Heap.run, herror]; exact hh', hw'⟩

/-- The tree `t` is a red-black tree, and the procedures that read it agree with the map. -/
structure Agrees (O : KeyOrder α) (h : Heap α β) (t : TreeId) (l : List (α × β)) : Prop where
  tree : ∃ S x, Good O h t S x ∧ x.toList = l
  lookup : ∀ key default,
    h.lookup O t key default = .ok (((find O l key).map Prod.snd).getD default)
  size : h.size t = .ok l.length
  toAlist : h.toAlist t = .ok l
  min : ∀ default, h.min t default = .ok ((l.head?.map Prod.fst).getD default)
  max : ∀ default, h.max t default = .ok ((l.getLast?.map Prod.fst).getD default)

theorem Good.agrees (hg : Good O h t S x) : Agrees O h t x.toList :=
  ⟨⟨S, x, hg, rfl⟩, hg.lookup, hg.size, hg.toAlist, hg.extremeKey .left, hg.extremeKey .right⟩

/-- **Every history keeps its trees red-black trees with the pairs of their maps.** -/
theorem red_black_history (O : KeyOrder α) {h : Heap α β} (hnone : h.treeCount = 0)
    {actions : List (Action α β)} {M : Maps α β} (hrun : Maps.empty.run O actions = some M) :
    ∃ h', h.run O actions = .ok h' ∧ h'.treeCount = M.count ∧
      ∀ t < M.count, Agrees O h' t (M.map t) := by
  have hw : World O h .empty :=
    ⟨hnone, fun _ => [], fun _ => .leaf, fun t ht => absurd ht (Nat.not_lt_zero t),
      fun t ht => absurd ht (Nat.not_lt_zero t)⟩
  obtain ⟨h', hh', hw'⟩ := hw.run hrun
  refine ⟨h', hh', hw'.count, fun t ht => ?_⟩
  obtain ⟨S, x, hgood, -⟩ := hw'.trees
  obtain ⟨hg, hx⟩ := hgood t ht
  exact hx ▸ hg.agrees

theorem red_black_history_copy_delete : ∃ M, Maps.empty.run natOrder [.make, .insert 0 2 20,
    .insert 0 1 10, .insert 0 3 30, .copy 0, .delete 0 2, .deleteMin 1 0,
    .update 1 3 (fun n => n + 1) none none, .update 1 9 (fun n => n + 1) none none] = some M ∧
    M.map 0 = [(1, 10), (3, 30)] ∧ M.map 1 = [(2, 20), (3, 31)] ∧
    ∃ h', Heap.run natOrder ⟨fun _ => ⟨0, 0, none, none, none, .none⟩, 0, fun _ => none, 0⟩
      [.make, .insert 0 2 20, .insert 0 1 10, .insert 0 3 30, .copy 0, .delete 0 2,
        .deleteMin 1 0, .update 1 3 (fun n => n + 1) none none,
        .update 1 9 (fun n => n + 1) none none] = .ok h' ∧
      h'.treeCount = M.count ∧ ∀ t < M.count, Agrees natOrder h' t (M.map t) :=
  ⟨_, rfl, rfl, rfl, red_black_history natOrder rfl rfl⟩

end MitScheme.Runtime.RbTree
