import MitScheme.Runtime.CondVar

/-! # The waiter list

The invariant of a condition variable, kept by each edit of the waiter list and by
each mark. -/

namespace MitScheme.Runtime.CondVar
open Lib.LinkedQueue (Links)
open Lib.DoublyLinked Lib.Machine Function

namespace Phase
variable {τ : Type}

/-- The phases of a wait whose waiter has been enqueued and not cleaned up. -/
def Waiting : Phase τ → WaiterId → Prop
  | .releasing x | .testing x | .checking x | .suspended x | .cleaning x _ =>
    fun w => x.waiter = w
  | _ => fun _ => False

def Value : Phase τ → Wait τ → Bool → Prop
  | .cleaning x value | .relocking x value | .outside (some (x, value)) =>
    fun y v => x = y ∧ value = v
  | _ => fun _ _ => False

def gaveUp : Phase τ → Bool
  | .cleaning _ false => true
  | _ => false

def Locked : Phase τ → Prop
  | .scanning .. | .signalling .. | .removing .. => True
  | _ => False

end Phase

namespace Condvar
variable {τ : Type} {s s' : Condvar τ} {t u : ThreadId} {w : WaiterId} {l l' a b : List WaiterId}
  {p : Phase τ} {x : Wait τ}

/-! ## The waiter list -/

/-- The links spell out the waiters of `l` between the sentinels; every other
waiter is detached. -/
structure Linked (s : Condvar τ) (l : List WaiterId) : Prop where
  dlinked : DLinked s.previous s.next (waiterHead :: l ++ [waiterTail])
  detached : ∀ w, w ∉ waiterHead :: l ++ [waiterTail] → s.next w = none ∧ s.previous w = none

theorem make_linked (clock : τ) : (make clock).Linked [] := by
  refine ⟨⟨⟨rfl, rfl, trivial⟩, ⟨rfl, rfl, trivial⟩, by decide⟩, ?_⟩
  intro w hw
  have hhead : w ≠ waiterHead := fun heq => hw (by simp [heq])
  have htail : w ≠ waiterTail := fun heq => hw (by simp [heq])
  simp [make, hhead, htail]

theorem Linked.next_head (h : s.Linked l) : s.next waiterHead = (l ++ [waiterTail]).head? :=
  DLinked.next_eq (a := []) h.dlinked

theorem Linked.next_mem (h : s.Linked (a ++ w :: b)) : s.next w = (b ++ [waiterTail]).head? := by
  have hsplit : waiterHead :: (a ++ w :: b) ++ [waiterTail] =
      (waiterHead :: a) ++ w :: (b ++ [waiterTail]) := by simp
  exact DLinked.next_eq (hsplit ▸ h.dlinked)

theorem Linked.nodup (h : s.Linked l) : l.Nodup :=
  (List.nodup_append.mp (List.nodup_cons.mp h.dlinked.nodup).2).1

theorem Linked.waiterDetached_iff (h : s.Linked l) (hh : w ≠ waiterHead) (ht : w ≠ waiterTail) :
    s.waiterDetached w = true ↔ w ∉ l := by
  constructor
  · intro hd hw
    obtain ⟨a, b, rfl⟩ := List.append_of_mem hw
    rw [waiterDetached, h.next_mem] at hd
    cases b <;> simp at hd
  · intro hw
    have hd := h.detached w (by simp [hh, ht, hw])
    rw [waiterDetached, hd.1, hd.2]
    rfl

theorem Linked.removeWaiter (h : s.Linked (a ++ w :: b)) :
    ∃ next previous, s.removeWaiter w = some { s with next, previous } ∧
      Linked { s with next, previous } (a ++ b) := by
  have hsplit : waiterHead :: (a ++ w :: b) ++ [waiterTail] =
      (waiterHead :: a) ++ w :: (b ++ [waiterTail]) := by simp
  have hjoin : waiterHead :: (a ++ b) ++ [waiterTail] =
      (waiterHead :: a) ++ (b ++ [waiterTail]) := by simp
  obtain ⟨hd, hdetached⟩ := h
  rw [hsplit] at hd hdetached
  obtain ⟨p, hp⟩ : ∃ p, (waiterHead :: a).getLast? = some p :=
    ⟨_, List.getLast?_eq_getLast_of_ne_nil (List.cons_ne_nil waiterHead a)⟩
  obtain ⟨n, hn⟩ : ∃ n, (b ++ [waiterTail]).head? = some n := by cases b <;> exact ⟨_, rfl⟩
  have hprev := hd.prev_eq
  have hnext := hd.next_eq
  rw [hp] at hprev
  rw [hn] at hnext
  have hnodup := List.nodup_middle.mp hd.nodup
  obtain ⟨hw, hnodup'⟩ := List.nodup_cons.mp hnodup
  have hpmem : p ∈ waiterHead :: a := List.mem_of_getLast? hp
  have hnmem : n ∈ b ++ [waiterTail] := List.mem_of_head? hn
  have hwp : w ≠ p := fun heq => hw (List.mem_append_left _ (heq ▸ hpmem))
  have hwn : w ≠ n := fun heq => hw (List.mem_append_right _ (heq ▸ hnmem))
  -- The neighbours point to the waiter.
  have hnextp : s.next p = some w := by
    obtain ⟨a', ha'⟩ : ∃ a', waiterHead :: a = a' ++ [p] := by
      obtain ⟨a', ha'⟩ := List.getLast?_eq_some_iff.mp hp
      exact ⟨a', ha'⟩
    rw [ha', List.append_assoc] at hd
    exact hd.next_eq
  have hprevn : s.previous n = some w := by
    obtain ⟨b', hb'⟩ : ∃ b', b ++ [waiterTail] = n :: b' := List.head?_eq_some_iff.mp hn
    have hd' := hd
    rw [hb', List.append_cons] at hd'
    rw [hd'.prev_eq, List.getLast?_concat]
  refine ⟨update (update s.next p (some n)) w none,
    update (update s.previous n (some p)) w none, ?_, ?_, ?_⟩
  · rw [Condvar.removeWaiter, hprev, hnext]
    simp only [ne_eq, hwp, not_false_eq_true, hwn, hnextp, hprevn, and_self, if_true]
  · rw [hjoin]
    dsimp only
    refine hd.delete ?_ ?_ ?_ ?_
    · intro p' hp'
      rw [hp] at hp'
      cases hp'
      rw [hn, update_of_ne hwp.symm, update_self]
    · intro n' hn'
      rw [hn] at hn'
      cases hn'
      rw [hp, update_of_ne hwn.symm, update_self]
    · intro j hj hne
      have hjw : j ≠ w := fun heq => hw (heq ▸ hj)
      have hjp : j ≠ p := fun heq => hne (by rw [hp, heq])
      rw [update_of_ne hjw, update_of_ne hjp]
    · intro j hj hne
      have hjw : j ≠ w := fun heq => hw (heq ▸ hj)
      have hjn : j ≠ n := fun heq => hne (by rw [hn, heq])
      rw [update_of_ne hjw, update_of_ne hjn]
  · intro j hj
    rw [hjoin] at hj
    by_cases hjw : j = w
    · subst hjw
      exact ⟨update_self _ _ _, update_self _ _ _⟩
    · have hjp : j ≠ p := fun heq => hj (List.mem_append_left _ (heq ▸ hpmem))
      have hjn : j ≠ n := fun heq => hj (List.mem_append_right _ (heq ▸ hnmem))
      have hold := hdetached j fun hm => hj (by simpa [hjw] using hm)
      simp only [update_of_ne hjw, update_of_ne hjp, update_of_ne hjn]
      exact hold

theorem Linked.enqueueWaiter (h : s.Linked l) (hw : w ∉ waiterHead :: l ++ [waiterTail]) :
    ∃ next previous, s.enqueueWaiter w =
        some { s with next, previous, enqueued := s.enqueued ++ [w] } ∧
      Linked { s with next, previous, enqueued := s.enqueued ++ [w] } (l ++ [w]) := by
  obtain ⟨hd, hdetached⟩ := h
  have hjoin : waiterHead :: (l ++ [w]) ++ [waiterTail] =
      (waiterHead :: l) ++ w :: [waiterTail] := by simp
  obtain ⟨p, hp⟩ : ∃ p, (waiterHead :: l).getLast? = some p :=
    ⟨_, List.getLast?_eq_getLast_of_ne_nil (List.cons_ne_nil waiterHead l)⟩
  have hpmem : p ∈ waiterHead :: l := List.mem_of_getLast? hp
  have htail : waiterTail ∉ waiterHead :: l := fun hm =>
    (List.nodup_append.mp hd.nodup).2.2 _ hm _ (List.mem_singleton_self _) rfl
  have htp : waiterTail ≠ p := fun heq => htail (heq ▸ hpmem)
  have hwp : w ≠ p := fun heq => hw (List.mem_append_left _ (heq ▸ hpmem))
  have hwt : w ≠ waiterTail := fun heq => hw (by simp [heq])
  have hprevt : s.previous waiterTail = some p := by rw [← hp]; exact hd.prev_eq
  have hnextt : s.next waiterTail = none := hd.next_eq
  have hnextp : s.next p = some waiterTail := by
    obtain ⟨a', ha'⟩ := List.getLast?_eq_some_iff.mp hp
    have hd' := hd
    rw [ha', List.append_assoc] at hd'
    exact hd'.next_eq
  refine ⟨update (update s.next p (some w)) w (some waiterTail),
    update (update s.previous waiterTail (some w)) w (some p), ?_, ?_, ?_⟩
  · rw [Condvar.enqueueWaiter, hprevt]
    simp only [(hdetached w hw).1, (hdetached w hw).2, hnextt, ne_eq, htp, not_false_eq_true,
      hnextp, and_self, if_true]
  · rw [hjoin]
    dsimp only
    refine hd.insert hw (update_self _ _ _) ?_ ?_ ?_ ?_ ?_
    · rw [hp]
      exact update_self _ _ _
    · intro p' hp'
      rw [hp] at hp'
      cases hp'
      rw [update_of_ne hwp.symm, update_self]
    · intro n hn
      cases hn
      rw [update_of_ne hwt.symm, update_self]
    · intro j hj hne
      have hjw : j ≠ w := fun heq => hw (heq ▸ hj)
      have hjp : j ≠ p := fun heq => hne (by rw [hp, heq])
      rw [update_of_ne hjw, update_of_ne hjp]
    · intro j hj hne
      have hjw : j ≠ w := fun heq => hw (heq ▸ hj)
      have hjt : j ≠ waiterTail := fun heq => hne (by rw [heq]; rfl)
      rw [update_of_ne hjw, update_of_ne hjt]
  · intro j hj
    rw [hjoin] at hj
    have hjw : j ≠ w := fun heq => hj (by simp [heq])
    have hjp : j ≠ p := fun heq => hj (List.mem_append_left _ (heq ▸ hpmem))
    have hjt : j ≠ waiterTail := fun heq => hj (by simp [heq])
    simp only [update_of_ne hjw, update_of_ne hjp, update_of_ne hjt]
    refine hdetached j fun hm => hj ?_
    rw [List.mem_append] at hm ⊢
    exact hm.imp_right (List.mem_cons_of_mem w)

/-! The edits mark no waiter. -/

theorem enqueueWaiter_done (hs : s.enqueueWaiter w = some s') : s'.done = s.done := by
  unfold enqueueWaiter at hs
  split at hs
  · split at hs <;> cases hs
    rfl
  · cases hs

theorem removeWaiter_done (hs : s.removeWaiter w = some s') : s'.done = s.done := by
  unfold removeWaiter at hs
  split at hs
  · split at hs <;> cases hs
    rfl
  · cases hs

/-! ## The invariant -/

variable [LinearOrder τ]

/-- The thread of `x` has enqueued its waiter, which waits or is done. -/
structure Waits (s : Condvar τ) (l : List WaiterId) (t : ThreadId) (x : Wait τ) : Prop where
  thread : s.thread x.waiter = t
  enqueued : x.waiter ∈ s.enqueued
  waiting : x.waiter ∈ l ∨ s.done x.waiter = true

/-- The value of a wait: whether the waiter is done; and if it is not, then the
timeout has passed. -/
structure ValueOk (s : Condvar τ) (x : Wait τ) (value : Bool) : Prop where
  done : value = s.done x.waiter
  timeout : value = false → ∃ timeout, x.timeout = some timeout ∧ timeout ≤ s.clock

structure Over (s : Condvar τ) (l : List WaiterId) (x : Wait τ) (value : Bool) : Prop where
  enqueued : x.waiter ∈ s.enqueued
  off : x.waiter ∉ l
  value : s.ValueOk x value

def PhaseOk (s : Condvar τ) (l : List WaiterId) (t : ThreadId) : Phase τ → Prop
  | .outside none => True
  | .outside (some (x, value)) => s.Over l x value
  | .enqueuing x =>
    s.thread x.waiter = t ∧ 2 ≤ x.waiter ∧ x.waiter < s.waiters ∧ x.waiter ∉ s.enqueued ∧
      s.owner x.mutex = some t
  | .releasing x => s.Waits l t x ∧ s.owner x.mutex = some t
  | .testing x | .checking x | .suspended x => s.Waits l t x
  | .cleaning x value => s.Waits l t x ∧ s.ValueOk x value
  | .relocking x value => s.Over l x value
  | .locking _ => True
  | .scanning _ w => s.lock = some t ∧ (l ++ [waiterTail]).head? = some w
  | .signalling _ w next =>
    s.lock = some t ∧ s.done w = false ∧ ∃ l', l = w :: l' ∧ next = (l' ++ [waiterTail]).head?
  | .removing w loop =>
    s.lock = some t ∧ s.done w = true ∧ ∃ l', l = w :: l' ∧
      ∀ r, loop = some r → r.2 = (l' ++ [waiterTail]).head?
  | .failed => False

structure Inv (s : Condvar τ) (l : List WaiterId) : Prop where
  linked : s.Linked l
  range : ∀ w ∈ s.enqueued, 2 ≤ w ∧ w < s.waiters
  order : l.Sublist s.enqueued
  once : s.enqueued.Nodup
  waiting : ∀ w ∈ l, (s.phase (s.thread w)).Waiting w
  fresh : ∀ w, w ∉ s.enqueued → s.done w = false
  lock : ∀ t, s.lock = some t → (s.phase t).Locked
  /-- A waiter that is done is on the list only until the signaller removes it. -/
  removed : ∀ w ∈ l, s.done w = true → ∃ t loop, s.phase t = .removing w loop
  phase : ∀ t, s.PhaseOk l t (s.phase t)
  sentinels : 2 ≤ s.waiters

/-- What a step must leave alone for the sake of thread `u`. -/
structure Frame (s s' : Condvar τ) (l l' : List WaiterId) (u : ThreadId) : Prop where
  thread : ∀ w < s.waiters, s'.thread w = s.thread w
  waiters : s.waiters ≤ s'.waiters
  enqueued : ∀ w ∈ s.enqueued, w ∈ s'.enqueued
  unqueued : ∀ w, s.thread w = u → w ∉ s.enqueued → w ∉ s'.enqueued
  owner : ∀ m, s.owner m = some u → s'.owner m = some u
  clock : s.clock ≤ s'.clock
  waiting : ∀ w, s.thread w = u → w ∈ l ∨ s.done w = true → w ∈ l' ∨ s'.done w = true
  off : ∀ w ∈ s.enqueued, w ∉ l → w ∉ l'

theorem Waits.frame (h : s.Waits l u x) (range : ∀ w ∈ s.enqueued, 2 ≤ w ∧ w < s.waiters)
    (f : Frame s s' l l' u) : s'.Waits l' u x :=
  ⟨(f.thread _ (range _ h.enqueued).2).trans h.thread, f.enqueued _ h.enqueued,
    f.waiting _ h.thread h.waiting⟩

theorem ValueOk.frame {value} (h : s.ValueOk x value) (f : Frame s s' l l' u)
    (hdone : s'.done x.waiter = s.done x.waiter) : s'.ValueOk x value := by
  refine ⟨h.done.trans hdone.symm, ?_⟩
  intro hv
  obtain ⟨timeout, ht, hle⟩ := h.timeout hv
  exact ⟨timeout, ht, le_trans hle f.clock⟩

theorem Over.frame {value} (h : s.Over l x value) (f : Frame s s' l l' u)
    (hdone : s'.done x.waiter = s.done x.waiter) : s'.Over l' x value :=
  ⟨f.enqueued _ h.enqueued, f.off _ h.enqueued h.off, h.value.frame f hdone⟩

theorem PhaseOk.frame (h : s.PhaseOk l u p)
    (range : ∀ w ∈ s.enqueued, 2 ≤ w ∧ w < s.waiters) (f : Frame s s' l l' u)
    (hvalue : ∀ x v, p.Value x v → s'.done x.waiter = s.done x.waiter)
    (hlocked : p.Locked → s'.PhaseOk l' u p) : s'.PhaseOk l' u p := by
  cases p with
  | outside last =>
    cases last with
    | none => trivial
    | some r => exact Over.frame h f (hvalue r.1 r.2 ⟨rfl, rfl⟩)
  | enqueuing x =>
    obtain ⟨ht, hge, hlt, hnot, howner⟩ := h
    exact ⟨(f.thread _ hlt).trans ht, hge, Nat.lt_of_lt_of_le hlt f.waiters,
      f.unqueued _ ht hnot, f.owner _ howner⟩
  | releasing x => exact ⟨h.1.frame range f, f.owner _ h.2⟩
  | testing x => exact Waits.frame h range f
  | checking x => exact Waits.frame h range f
  | suspended x => exact Waits.frame h range f
  | cleaning x value =>
    exact ⟨h.1.frame range f, h.2.frame f (hvalue x value ⟨rfl, rfl⟩)⟩
  | relocking x value => exact Over.frame h f (hvalue x value ⟨rfl, rfl⟩)
  | locking broadcast => trivial
  | scanning broadcast w => exact hlocked trivial
  | signalling broadcast w next => exact hlocked trivial
  | removing w loop => exact hlocked trivial
  | failed => exact h

theorem PhaseOk.locked (h : s.PhaseOk l u p) (hp : p.Locked) : s.lock = some u := by
  cases p <;> first | exact h.1 | exact absurd hp id

theorem PhaseOk.congr_locked (h : s.PhaseOk l u p) (hp : p.Locked) (hlock : s'.lock = s.lock)
    (hdone : s'.done = s.done) : s'.PhaseOk l u p := by
  cases p with
  | scanning broadcast w => exact ⟨hlock.trans h.1, h.2⟩
  | signalling broadcast w next => exact ⟨hlock.trans h.1, hdone ▸ h.2.1, h.2.2⟩
  | removing w loop => exact ⟨hlock.trans h.1, hdone ▸ h.2.1, h.2.2⟩
  | _ => exact absurd hp id

section
variable (h : Inv s l)
include h

theorem Inv.phaseStep {thread : WaiterId → ThreadId} {waiters lock}
    {owner : MutexId → Option ThreadId} {clock}
    (hs' : s' = { s with thread, waiters, lock, owner, clock }.setPhase t p)
    (hthread : ∀ w < s.waiters, thread w = s.thread w) (hwaiters : s.waiters ≤ waiters)
    (howner : ∀ u ≠ t, ∀ m, s.owner m = some u → owner m = some u) (hclock : s.clock ≤ clock)
    (hlock : ∀ u ≠ t, s.lock = some u ↔ lock = some u) (hmine : lock = some t → p.Locked)
    (hwaiting : ∀ w, (s.phase t).Waiting w → p.Waiting w)
    (hrem : ∀ w loop, s.phase t = .removing w loop → p = .removing w loop) (hp : s'.PhaseOk l t p) :
    Inv s' l := by
  have hphase : ∀ u ≠ t, s'.phase u = s.phase u := by
    intro u hu
    rw [hs']
    exact update_of_ne hu _ _
  have hself : s'.phase t = p := by
    rw [hs']
    exact update_self _ _ _
  have hsame : s'.next = s.next ∧ s'.previous = s.previous ∧ s'.done = s.done ∧
      s'.enqueued = s.enqueued ∧ s'.thread = thread ∧ s'.waiters = waiters ∧ s'.lock = lock ∧
        s'.owner = owner ∧ s'.clock = clock := by
    rw [hs']
    exact ⟨rfl, rfl, rfl, rfl, rfl, rfl, rfl, rfl, rfl⟩
  obtain ⟨hnext, hprevious, hdone, henq, hthr, hwts, hlck, hown, hclk⟩ := hsame
  have hframe : ∀ u ≠ t, Frame s s' l l u := by
    intro u hu
    refine ⟨?_, ?_, ?_, ?_, ?_, ?_, ?_, fun _ _ hw => hw⟩
    · rwa [hthr]
    · rwa [hwts]
    · rw [henq]
      exact fun _ hw => hw
    · rw [henq]
      exact fun _ _ hw => hw
    · rw [hown]
      exact howner u hu
    · rwa [hclk]
    · rw [hdone]
      exact fun _ _ hw => hw
  refine ⟨⟨?_, ?_⟩, ?_, ?_, ?_, ?_, ?_, ?_, ?_, ?_, hwts ▸ Nat.le_trans h.sentinels hwaiters⟩
  · rw [hnext, hprevious]
    exact h.linked.dlinked
  · rw [hnext, hprevious]
    exact h.linked.detached
  · rw [henq, hwts]
    exact fun w hw => ⟨(h.range w hw).1, Nat.lt_of_lt_of_le (h.range w hw).2 hwaiters⟩
  · rw [henq]
    exact h.order
  · rw [henq]
    exact h.once
  · intro w hw
    have hold := h.waiting w hw
    rw [hthr, hthread w (h.range w (h.order.subset hw)).2]
    by_cases hu : s.thread w = t
    · rw [hu] at hold ⊢
      rw [hself]
      exact hwaiting w hold
    · rw [hphase _ hu]
      exact hold
  · rw [henq, hdone]
    exact h.fresh
  · intro u hu
    rw [hlck] at hu
    by_cases hut : u = t
    · subst hut
      rw [hself]
      exact hmine hu
    · rw [hphase u hut]
      exact h.lock u ((hlock u hut).mpr hu)
  · intro w hw hd
    rw [hdone] at hd
    obtain ⟨u, loop, hu⟩ := h.removed w hw hd
    refine ⟨u, loop, ?_⟩
    by_cases hut : u = t
    · subst hut
      rw [hself]
      exact hrem w loop hu
    · rw [hphase u hut]
      exact hu
  · intro u
    by_cases hut : u = t
    · subst hut
      rw [hself]
      exact hp
    · rw [hphase u hut]
      have hold := h.phase u
      refine hold.frame h.range (hframe u hut) (fun _ _ _ => by rw [hdone]) ?_
      intro hlocked
      have hu := hold.locked hlocked
      refine hold.congr_locked hlocked ?_ hdone
      rw [hlck, hu, (hlock u hut).mp hu]

theorem Inv.not_sentinel (hw : w ∈ s.enqueued) : w ≠ waiterHead ∧ w ≠ waiterTail := by
  have hge := (h.range w hw).1
  constructor
  · rintro rfl
    exact absurd hge (by decide)
  · rintro rfl
    exact absurd hge (by decide)

theorem Inv.not_locked (hfree : s.lock = none) (u) : ¬ (s.phase u).Locked := by
  intro hl
  have := (h.phase u).locked hl
  rw [hfree] at this
  cases this

theorem Inv.not_done (hfree : s.lock = none) (hw : w ∈ l) : s.done w = false := by
  by_contra hd
  obtain ⟨u, loop, hu⟩ := h.removed w hw (by simpa using hd)
  exact h.not_locked hfree u (by rw [hu]; trivial)

theorem Inv.locked_unique (ht : (s.phase t).Locked) (hu : (s.phase u).Locked) : t = u := by
  have h1 := (h.phase t).locked ht
  have h2 := (h.phase u).locked hu
  rw [h1] at h2
  exact Option.some.inj h2

/-! ## The steps that edit the list or mark a waiter -/

theorem Inv.enqueue (hp : s.phase t = .enqueuing x) (hfree : s.lock = none) :
    ∃ s₁, s.enqueueWaiter x.waiter = some s₁ ∧
      Inv (s₁.setPhase t (.releasing x)) (l ++ [x.waiter]) := by
  have hok := h.phase t
  rw [hp] at hok
  obtain ⟨hthread, hge, hlt, hnot, howner⟩ := hok
  have hnew : x.waiter ∉ waiterHead :: l ++ [waiterTail] := by
    rw [List.cons_append, List.mem_cons, List.mem_append, List.mem_singleton]
    rintro (heq | hm | heq)
    · exact absurd (heq ▸ hge) (by decide)
    · exact hnot (h.order.subset hm)
    · exact absurd (heq ▸ hge) (by decide)
  obtain ⟨next, previous, hs₁, hlinked⟩ := h.linked.enqueueWaiter hnew
  refine ⟨_, hs₁, ⟨hlinked.dlinked, hlinked.detached⟩, ?_, ?_, ?_, ?_, ?_, ?_, ?_, ?_,
    h.sentinels⟩
  · intro w hw
    obtain hw | hw := List.mem_append.mp hw
    · exact h.range w hw
    · rw [List.mem_singleton.mp hw]
      exact ⟨hge, hlt⟩
  · exact h.order.append (List.Sublist.refl [x.waiter])
  · refine List.nodup_append.mpr ⟨h.once, List.nodup_singleton _, ?_⟩
    intro w hw w' hw' heq
    rw [List.mem_singleton] at hw'
    exact hnot (hw' ▸ heq ▸ hw)
  · intro w hw
    show (update s.phase t (.releasing x) (s.thread w)).Waiting w
    obtain hw | hw := List.mem_append.mp hw
    · have hold := h.waiting w hw
      by_cases hu : s.thread w = t
      · rw [hu, hp] at hold
        exact absurd hold id
      · rwa [update_of_ne hu]
    · rw [List.mem_singleton.mp hw, hthread, update_self]
      exact rfl
  · intro w hw
    exact h.fresh w fun hm => hw (List.mem_append_left _ hm)
  · intro u hu
    rw [show s.lock = some u from hu] at hfree
    cases hfree
  · intro w hw hd
    have hd : s.done w = true := hd
    obtain hw | hw := List.mem_append.mp hw
    · rw [h.not_done hfree hw] at hd
      cases hd
    · rw [List.mem_singleton.mp hw, h.fresh _ hnot] at hd
      cases hd
  · intro u
    show PhaseOk _ _ u (update s.phase t (.releasing x) u)
    by_cases hut : u = t
    · subst hut
      rw [update_self]
      exact ⟨⟨hthread, List.mem_append_right _ (List.mem_singleton_self _),
        .inl (List.mem_append_right _ (List.mem_singleton_self _))⟩, howner⟩
    · rw [update_of_ne hut]
      have hold := h.phase u
      refine hold.frame h.range ⟨fun _ _ => rfl, Nat.le_refl _, ?_, ?_, fun _ ho => ho, le_refl _,
        ?_, ?_⟩ (fun _ _ _ => rfl) fun hl => absurd hl (h.not_locked hfree u)
      · intro w hw
        exact List.mem_append_left _ hw
      · intro w hw hn hm
        obtain hm | hm := List.mem_append.mp hm
        · exact hn hm
        · rw [List.mem_singleton.mp hm, hthread] at hw
          exact hut hw.symm
      · intro w _ hw
        exact hw.imp_left (List.mem_append_left _)
      · intro w hw hn hm
        obtain hm | hm := List.mem_append.mp hm
        · exact hn hm
        · exact hnot (List.mem_singleton.mp hm ▸ hw)

theorem Inv.clean {value} {next previous : WaiterId → Option WaiterId}
    (hp : s.phase t = .cleaning x value) (hfree : s.lock = none)
    (hlinked : Linked { s with next, previous } l') (hsub : l'.Sublist l)
    (hl : ∀ w, w ∈ l' ↔ w ∈ l ∧ w ≠ x.waiter) :
    Inv ({ s with next, previous }.finishWait t x value) l' := by
  have hok := h.phase t
  rw [hp] at hok
  obtain ⟨⟨hthread, henq, hwait⟩, hvalue⟩ := hok
  have hover : Over ({ s with next, previous }.finishWait t x value) l' x value :=
    ⟨henq, fun hm => ((hl _).mp hm).2 rfl, hvalue.done, hvalue.timeout⟩
  have hothers : ∀ u ≠ t, ({ s with next, previous }.finishWait t x value).phase u = s.phase u :=
    fun u hu => update_of_ne hu _ _
  refine ⟨⟨hlinked.dlinked, hlinked.detached⟩, h.range, hsub.trans h.order, h.once, ?_, h.fresh,
    ?_, ?_, ?_, h.sentinels⟩
  · intro w hw
    obtain ⟨hw, hne⟩ := (hl w).mp hw
    have hold := h.waiting w hw
    show (Condvar.phase _ (s.thread w)).Waiting w
    by_cases hu : s.thread w = t
    · rw [hu, hp] at hold
      exact absurd hold.symm hne
    · rwa [hothers _ hu]
  · intro u hu
    rw [show s.lock = some u from hu] at hfree
    cases hfree
  · intro w hw hd
    have hd : s.done w = true := hd
    rw [h.not_done hfree ((hl w).mp hw).1] at hd
    cases hd
  · intro u
    by_cases hut : u = t
    · subst hut
      show PhaseOk _ _ u (update s.phase u _ u)
      rw [update_self]
      split
      · exact hover
      · exact hover
    · rw [hothers u hut]
      have hold := h.phase u
      refine hold.frame h.range ⟨fun _ _ => rfl, Nat.le_refl _, fun _ hw => hw, fun _ _ hw => hw,
        fun _ ho => ho, le_refl _, ?_, ?_⟩ (fun _ _ _ => rfl) fun hl => absurd hl
          (h.not_locked hfree u)
      · intro w hw hold
        refine hold.imp_left fun hm => (hl w).mpr ⟨hm, ?_⟩
        rintro rfl
        exact hut (hw.symm.trans hthread)
      · intro w _ hn hm
        exact hn ((hl w).mp hm).1

end

/-- No thread has given up its wait for a waiter that is about to be marked. -/
def MarksWaiting (s : Condvar τ) (w : WaiterId) : Prop :=
  (s.phase (s.thread w)).gaveUp = false

theorem Inv.mark (h : Inv s l) {broadcast next} (hp : s.phase t = .signalling broadcast w next)
    (hm : s.MarksWaiting w) : Inv ({ s with done := update s.done w true }.setPhase t
      (.removing w (if broadcast then some (broadcast, next) else none))) l := by
  have hok := h.phase t
  rw [hp] at hok
  obtain ⟨hlock, hdone, l', rfl, hnext⟩ := hok
  have hmem : w ∈ w :: l' := List.mem_cons_self
  have hold : ∀ v, s.done v = true → update s.done w true v = true := by
    intro v hv
    by_cases hvw : v = w
    · rw [hvw, update_self]
    · rwa [update_of_ne hvw]
  refine ⟨⟨h.linked.dlinked, h.linked.detached⟩, h.range, h.order, h.once, ?_, ?_, ?_, ?_, ?_,
    h.sentinels⟩
  · intro v hv
    have hwait := h.waiting v hv
    show (update s.phase t _ (s.thread v)).Waiting v
    by_cases hu : s.thread v = t
    · rw [hu, hp] at hwait
      exact absurd hwait id
    · rwa [update_of_ne hu]
  · intro v hv
    have hvw : v ≠ w := by
      rintro rfl
      exact hv (h.order.subset hmem)
    show update s.done w true v = false
    rw [update_of_ne hvw]
    exact h.fresh v hv
  · intro u hu
    rw [show s.lock = some u from hu] at hlock
    cases hlock
    show (update s.phase t _ t).Locked
    rw [update_self]
    trivial
  · intro v hv hd
    refine ⟨t, if broadcast then some (broadcast, next) else none, ?_⟩
    show update s.phase t _ t = _
    rw [update_self]
    by_cases hvw : v = w
    · rw [hvw]
    · -- Another waiter that is done would be removed by the owner of the lock.
      have hd : s.done v = true := by
        have : update s.done w true v = true := hd
        rwa [update_of_ne hvw] at this
      obtain ⟨u, loop, hu⟩ := h.removed v hv hd
      obtain rfl := h.locked_unique (t := t) (u := u) (by rw [hp]; trivial) (by rw [hu]; trivial)
      rw [hp] at hu
      cases hu
  · intro u
    show PhaseOk _ _ u (update s.phase t _ u)
    by_cases hut : u = t
    · subst hut
      rw [update_self]
      refine ⟨hlock, update_self _ _ _, l', rfl, ?_⟩
      intro r hr
      split at hr
      · cases hr
        exact hnext
      · cases hr
    · rw [update_of_ne hut]
      have hu := h.phase u
      refine hu.frame h.range ⟨fun _ _ => rfl, Nat.le_refl _, fun _ hw => hw, fun _ _ hw => hw,
        fun _ ho => ho, le_refl _, fun v _ hv => hv.imp_right (hold v), fun _ _ hn => hn⟩ ?_ ?_
      · intro x v hv
        refine update_of_ne ?_ _ _
        intro heq
        -- A wait with a value whose waiter is on the list has given up.
        cases hpu : s.phase u with
        | cleaning y value =>
          rw [hpu] at hu hv
          obtain ⟨rfl, rfl⟩ := hv
          have hfalse : value = false := by rw [hu.2.done, heq, hdone]
          unfold MarksWaiting at hm
          rw [← heq, hu.1.thread, hpu, hfalse] at hm
          cases hm
        | relocking y value =>
          rw [hpu] at hu hv
          obtain ⟨rfl, rfl⟩ := hv
          exact hu.off (heq ▸ hmem)
        | outside last =>
          cases last with
          | none =>
            rw [hpu] at hv
            exact hv
          | some r =>
            rw [hpu] at hu hv
            obtain ⟨rfl, rfl⟩ := hv
            exact Over.off hu (heq ▸ hmem)
        | _ =>
          rw [hpu] at hv
          exact hv
      · intro hl
        exact absurd (h.locked_unique hl (t := u) (u := t) (by rw [hp]; trivial)) hut

theorem Inv.removed_first (h : Inv s (w :: l)) {loop} (hp : s.phase t = .removing w loop)
    {next previous : WaiterId → Option WaiterId} (lock : Option ThreadId)
    (hlinked : Linked { s with next, previous } l) (hlock : ∀ u, lock = some u → u = t ∧ p.Locked)
    (hok : PhaseOk ({ s with next, previous, lock }.setPhase t p) l t p) :
    Inv ({ s with next, previous, lock }.setPhase t p) l := by
  have hdone : s.done w = true := by
    have := h.phase t
    rw [hp] at this
    exact this.2.1
  have hsub : l.Sublist (w :: l) := List.sublist_cons_self w l
  have hw : w ∉ l := (List.nodup_cons.mp h.linked.nodup).1
  refine ⟨⟨hlinked.dlinked, hlinked.detached⟩, h.range, hsub.trans h.order, h.once, ?_, h.fresh,
    ?_, ?_, ?_, h.sentinels⟩
  · intro v hv
    have hold := h.waiting v (hsub.subset hv)
    show (update s.phase t p (s.thread v)).Waiting v
    by_cases hu : s.thread v = t
    · rw [hu, hp] at hold
      exact absurd hold id
    · rwa [update_of_ne hu]
  · intro u hu
    obtain ⟨rfl, hl⟩ := hlock u hu
    show (update s.phase u p u).Locked
    rwa [update_self]
  · intro v hv hd
    -- No other waiter of the list is done.
    obtain ⟨u, loop', hu⟩ := h.removed v (hsub.subset hv) hd
    obtain rfl := h.locked_unique (t := t) (u := u) (by rw [hp]; trivial) (by rw [hu]; trivial)
    rw [hp] at hu
    cases hu
    exact absurd hv hw
  · intro u
    show PhaseOk _ _ u (update s.phase t p u)
    by_cases hut : u = t
    · subst hut
      rw [update_self]
      exact hok
    · rw [update_of_ne hut]
      refine (h.phase u).frame h.range ⟨fun _ _ => rfl, Nat.le_refl _, fun _ hw => hw,
        fun _ _ hw => hw, fun _ ho => ho, le_refl _, ?_, ?_⟩ (fun _ _ _ => rfl) ?_
      · rintro v - (hv | hv)
        · obtain rfl | hv := List.mem_cons.mp hv
          · exact .inr hdone
          · exact .inl hv
        · exact .inr hv
      · intro v _ hn hm
        exact hn (hsub.subset hm)
      · intro hl
        exact absurd (h.locked_unique hl (t := u) (u := t) (by rw [hp]; trivial)) hut

theorem Inv.remove (h : Inv s l) {loop} (hp : s.phase t = .removing w loop) :
    ∃ s₁ l', s.removeWaiter w = some s₁ ∧
      (loop = none → Inv ({ s₁ with lock := none }.setPhase t (.outside none)) l') ∧
      ∀ broadcast next, loop = some (broadcast, next) →
        ∃ v, next = some v ∧ Inv (s₁.setPhase t (.scanning broadcast v)) l' := by
  have hok := h.phase t
  rw [hp] at hok
  obtain ⟨hlock, -, l', rfl, hnext⟩ := hok
  obtain ⟨next, previous, hs₁, hlinked⟩ := h.linked.removeWaiter (a := [])
  refine ⟨_, l', hs₁, ?_, ?_⟩
  · intro _
    exact h.removed_first hp none hlinked nofun trivial
  · intro broadcast next' hl
    obtain ⟨v, hv⟩ : ∃ v, (l' ++ [waiterTail]).head? = some v := by cases l' <;> exact ⟨_, rfl⟩
    have hn := hnext _ hl
    refine ⟨v, hn.trans hv, ?_⟩
    refine h.removed_first hp s.lock hlinked ?_ ⟨hlock, hv⟩
    intro u hu
    rw [hlock] at hu
    exact ⟨(Option.some.inj hu).symm, trivial⟩

end Condvar
end MitScheme.Runtime.CondVar
