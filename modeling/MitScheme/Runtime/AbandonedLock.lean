import MitScheme.Runtime.ThreadMutex

/-! # Abandoned lock requests

`lock-thread-mutex` puts the thread on the waiting ring and the mutex in
`thread/mutexes`, and then runs thread events until the mutex is handed over. An
event that exits from the wait removes neither entry: `with-thread-mutex-lock`
runs no clean-up when its before-thunk is left. -/

namespace MitScheme.Runtime.ThreadKernel
open Lib.LinkedQueue Lib.Machine Function

namespace Mutex

theorem mem_passOn (x : Mutex) (t) :
    t ∈ x.waitingThreads ↔ x.passOn.owner = some t ∨ t ∈ x.passOn.waitingThreads := by
  unfold passOn
  cases x.waitingThreads with
  | nil => simp
  | cons w ring => simp [eq_comm]

theorem passOn_free {x : Mutex} (hn : x.passOn.owner = none) : x.passOn.waitingThreads = [] := by
  unfold passOn at hn ⊢
  rw [List.head?_eq_none_iff] at hn
  rw [hn]
  rfl

end Mutex

namespace LockView

/-! ## Mutex data with exits -/

/-- The steps of thread `t` when its code may also unlock a mutex that an outer
call waits for, and exit from a wait whose request is gone. -/
inductive ExitStep (t : ThreadId) (v : LockView) : LockView → Prop
  | same : ExitStep t v v
  | acquire (m) (free : (v.table m).owner = none) : ExitStep t v (v.acquire t m)
  | enqueue (m o) (owned : (v.table m).owner = some o) (other : o ≠ t)
      (fresh : t ∉ (v.table m).waitingThreads) : ExitStep t v (v.enqueue t m)
  | complete (done left) (waits : v.waits t = done ++ left)
      (off : ∀ m ∈ done, t ∉ (v.table m).waitingThreads) : ExitStep t v (v.complete t left)
  | release (m) (owner : (v.table m).owner = some t) : ExitStep t v (v.release t m)
  | leave : ExitStep t v (v.leave t)

/-- The threads on a ring are inside `lock-thread-mutex`, and `thread/mutexes`
lists the requests and the mutexes owned. -/
structure Inside (v : LockView) : Prop where
  free : ∀ m, (v.table m).owner = none → (v.table m).waitingThreads = []
  once : ∀ m, (v.table m).waitingThreads.Nodup
  notOwner : ∀ m t, t ∈ (v.table m).waitingThreads → (v.table m).owner ≠ some t
  waits : ∀ m t, t ∈ (v.table m).waitingThreads → m ∈ v.waits t
  held : ∀ t m, m ∈ v.held t ↔ (v.table m).owner = some t ∨ t ∈ (v.table m).waitingThreads
  heldOnce : ∀ t, (v.held t).Nodup

variable {v v' : LockView} {t : ThreadId} {m : MutexId}

section
variable (h : Inside v)
include h

theorem Inside.passOn_notOwner {u} (hu : u ∈ (v.table m).passOn.waitingThreads) :
    (v.table m).passOn.owner ≠ some u := by
  have honce := h.once m
  unfold Mutex.passOn at hu ⊢
  cases hring : (v.table m).waitingThreads with
  | nil => simp
  | cons w ring =>
    rw [hring] at honce hu
    rintro heq
    cases heq
    exact (List.nodup_cons.mp honce).1 hu

theorem Inside.acquire (free : (v.table m).owner = none) : Inside (v.acquire t m) := by
  have hring := h.free m free
  have hnew : m ∉ v.held t := by
    rw [h.held, free, hring]
    simp
  refine ⟨?_, ?_, ?_, ?_, ?_, nodup_update h.heldOnce (List.nodup_cons.mpr ⟨hnew, h.heldOnce t⟩)⟩
  · intro n
    have := h.free n
    simp only [LockView.acquire, update_apply]
    grind
  · intro n
    have := h.once n
    simp only [LockView.acquire, update_apply]
    grind
  · intro n u
    have := h.notOwner n u
    simp only [LockView.acquire, update_apply]
    grind
  · intro n u
    have := h.waits n u
    simp only [LockView.acquire, update_apply]
    grind
  · intro u n
    have := h.held u n
    simp only [LockView.acquire, update_apply]
    grind

theorem Inside.enqueue {o} (owned : (v.table m).owner = some o) (other : o ≠ t)
    (fresh : t ∉ (v.table m).waitingThreads) : Inside (v.enqueue t m) := by
  have hnew : m ∉ v.held t := by
    rw [h.held, owned]
    simp [fresh, other]
  refine ⟨?_, ?_, ?_, ?_, ?_, nodup_update h.heldOnce (List.nodup_cons.mpr ⟨hnew, h.heldOnce t⟩)⟩
  · intro n
    have := h.free n
    simp only [LockView.enqueue, update_apply]
    grind
  · intro n
    by_cases hnm : n = m
    · subst hnm
      simp only [LockView.enqueue, update_self]
      refine List.nodup_append.mpr ⟨h.once n, List.nodup_singleton t, ?_⟩
      intro u hu w hw heq
      rw [List.mem_singleton] at hw
      exact fresh (hw ▸ heq ▸ hu)
    · simpa [LockView.enqueue, hnm] using h.once n
  · intro n u
    have := h.notOwner n u
    simp only [LockView.enqueue, update_apply]
    grind
  · intro n u
    have := h.waits n u
    simp only [LockView.enqueue, update_apply]
    grind
  · intro u n
    have := h.held u n
    simp only [LockView.enqueue, update_apply]
    grind

theorem Inside.complete {done left} (waits : v.waits t = done ++ left)
    (off : ∀ m ∈ done, t ∉ (v.table m).waitingThreads) : Inside (v.complete t left) := by
  refine ⟨h.free, h.once, h.notOwner, ?_, h.held, h.heldOnce⟩
  intro n u hu
  have hold := h.waits n u hu
  by_cases hut : u = t
  · subst hut
    rw [waits, List.mem_append] at hold
    simpa [LockView.complete] using hold.resolve_left fun hd => off n hd hu
  · simpa [LockView.complete, hut] using hold

theorem Inside.release (owner : (v.table m).owner = some t) : Inside (v.release t m) := by
  refine ⟨?_, ?_, ?_, ?_, ?_, nodup_update h.heldOnce ((h.heldOnce t).filter _)⟩
  · intro n
    by_cases hnm : n = m
    · subst hnm
      simpa [LockView.release] using Mutex.passOn_free
    · simpa [LockView.release, hnm] using h.free n
  · intro n
    by_cases hnm : n = m
    · subst hnm
      simpa [LockView.release, Mutex.passOn] using (h.once n).tail
    · simpa [LockView.release, hnm] using h.once n
  · intro n u
    by_cases hnm : n = m
    · subst hnm
      simpa [LockView.release] using h.passOn_notOwner
    · simpa [LockView.release, hnm] using h.notOwner n u
  · intro n u hu
    refine h.waits n u ?_
    by_cases hnm : n = m
    · subst hnm
      rw [Mutex.mem_passOn]
      exact .inr (by simpa [LockView.release] using hu)
    · simpa [LockView.release, hnm] using hu
  · intro u n
    have hold := h.held u n
    have hpass := (v.table n).mem_passOn u
    have hnot := h.notOwner n t
    simp only [LockView.release, update_apply]
    grind

theorem Inside.leave (t) : Inside (v.leave t) := by
  refine ⟨?_, ?_, ?_, ?_, ?_, nodup_update h.heldOnce List.nodup_nil⟩
  · intro n
    have hold := h.free n
    have hpass : (v.table n).passOn.owner = none → _ := Mutex.passOn_free
    simp only [LockView.leave, Mutex.leave]
    grind
  · intro n
    simp only [LockView.leave, Mutex.leave]
    split
    · split
      · exact (h.once n).tail
      · exact (h.once n).erase t
    · exact h.once n
  · intro n u
    have hold := h.notOwner n u
    have hpass : u ∈ (v.table n).passOn.waitingThreads → _ := h.passOn_notOwner
    have hsub : u ∈ (v.table n).waitingThreads.erase t → u ∈ (v.table n).waitingThreads :=
      List.mem_of_mem_erase
    simp only [LockView.leave, Mutex.leave]
    grind
  · intro n u hu
    have hself : u ≠ t := by
      rintro rfl
      have hold := h.held u n
      have hnot := h.notOwner n u
      have hpass := (v.table n).mem_passOn u
      have herase := (h.once n).mem_erase_iff (a := u) (b := u)
      simp only [LockView.leave, Mutex.leave] at hu
      grind
    have hold : u ∈ (v.table n).waitingThreads := by
      have hpass := (v.table n).mem_passOn u
      have hsub : u ∈ (v.table n).waitingThreads.erase t → u ∈ (v.table n).waitingThreads :=
        List.mem_of_mem_erase
      simp only [LockView.leave, Mutex.leave] at hu
      grind
    simpa [LockView.leave, hself] using h.waits n u hold
  · intro u n
    have hold := h.held u n
    have hself := h.held t n
    have hnot := h.notOwner n t
    have hpass := (v.table n).mem_passOn u
    have herase := (h.once n).mem_erase_iff (a := t) (b := u)
    simp only [LockView.leave, Mutex.leave, update_apply]
    grind

end

theorem ExitStep.inside (hs : ExitStep t v v') (h : Inside v) : Inside v' := by
  cases hs with
  | same => exact h
  | acquire m free => exact h.acquire free
  | enqueue m o owned other fresh => exact h.enqueue owned other fresh
  | complete done left waits off => exact h.complete waits off
  | release m owner => exact h.release owner
  | leave => exact h.leave t

theorem ExitStep.others (hs : ExitStep t v v') {u} (hut : u ≠ t) :
    v'.held u = v.held u ∧ v'.waits u = v.waits u := by
  cases hs <;>
    simp [LockView.acquire, LockView.enqueue, LockView.complete, LockView.release, LockView.leave,
      hut]

theorem Step.exitStep (hs : Step t v v') (h : Inside v) : ExitStep t v v' := by
  cases hs with
  | same => exact .same
  | acquire m free => exact .acquire m free
  | enqueue m o owned other fresh =>
    exact .enqueue m o owned other fun hm => fresh (h.waits m t hm)
  | complete done left waits owner =>
    exact .complete done left waits fun m hm hring => h.notOwner m t hring (owner m hm)
  | release m owner fresh => exact .release m owner
  | leave => exact .leave

end LockView

namespace Kernel
variable {s s' : Kernel} {t : ThreadId} {m : MutexId} {a : Action} {depth : Nat}
  {block : BlockEvents}

/-! ## Exits from the wait -/

/-- No trace is left of a request of `t` for `m`. -/
def Forgotten (s : Kernel) (t : ThreadId) (m : MutexId) : Prop :=
  t ∉ (s.mutexes m).waitingThreads ∧ m ∉ (s.threads t).mutexes

instance (s : Kernel) (t : ThreadId) (m : MutexId) : Decidable (s.Forgotten t m) := by
  unfold Forgotten
  infer_instance

/-- Code of thread `t` that runs during its wait for `m` exits from it, with the
`depth` innermost calls. -/
def Abandons (s : Kernel) (t : ThreadId) (m : MutexId) (depth : Nat) : Prop :=
  s.control = .user ∧ s.queue.first = some t ∧ .lockWait m ∈ (s.threads t).frames.take depth

/-- An exit from a wait is made only when no trace is left of the request, and
no mutex is locked again by a thread on its ring. -/
def LeavesForgottenBy (s : Kernel) (t : ThreadId) : Action → Prop
  | .lock m => t ∉ (s.mutexes m).waitingThreads
  | .escape depth _ => ∀ m ∈ lockWaits ((s.threads t).frames.take depth), s.Forgotten t m
  | _ => True

def LeavesForgotten (s : Kernel) (a : Action) : Prop :=
  s.control = .user → ∀ t ∈ s.queue.first, s.LeavesForgottenBy t a

instance (s : Kernel) (t : ThreadId) : (a : Action) → Decidable (s.LeavesForgottenBy t a)
  | .lock m => inferInstanceAs (Decidable (t ∉ (s.mutexes m).waitingThreads))
  | .escape depth _ =>
    inferInstanceAs
      (Decidable (∀ m ∈ lockWaits ((s.threads t).frames.take depth), s.Forgotten t m))
  | .createThread _ | .suspend _ | .stop | .restart .. | .yield _ | .exit | .signal .. | .join ..
  | .detach _ | .setEventBlock _ | .allowDelivery _ | .allowPreempt _ | .unlock _ | .tryLock _
  | .return | .timer _ | .kernel _ => inferInstanceAs (Decidable True)

instance (s : Kernel) (a : Action) : Decidable (s.LeavesForgotten a) := by
  unfold LeavesForgotten
  infer_instance

theorem escape_lockView (hc : s.control = .user)
    (hq : s.queue.first = some t) (hs : s.step (.escape depth block) = some s') :
    s'.lockView = s.lockView.complete t (lockWaits ((s.threads t).frames.drop depth)) := by
  unfold step at hs
  rw [hc, hq] at hs
  simp only [userStep] at hs
  split at hs
  · cases hs
  · cases hs
    rw [lockView_setThreadEventBlock, lockView_setFrames]

theorem escape_forgotten (ha : s.Abandons t m depth)
    (hs : s.step (.escape depth block) = some s') : s'.Forgotten t m ↔ s.Forgotten t m := by
  have hview := escape_lockView ha.1 ha.2.1 hs
  have htable : s'.mutexes = s.mutexes := congrArg LockView.table hview
  have hheld : (s'.threads t).mutexes = (s.threads t).mutexes :=
    congrFun (congrArg LockView.held hview) t
  unfold Forgotten
  rw [htable, hheld]

theorem LockOk.not_forgotten (h : s.LockOk) (ha : s.Abandons t m depth) : ¬ s.Forgotten t m := by
  intro hf
  refine hf.2 ((h.mutexOk.mutexes t m).mpr (.inr ?_))
  exact List.mem_of_mem_take ha.2.2

theorem LockOk.abandoned (h : s.LockOk)
    (ha : s.Abandons t m depth) (hs : s.step (.escape depth block) = some s') :
    (t ∈ (s'.mutexes m).waitingThreads ∨ (s'.mutexes m).owner = some t) ∧
      .lockWait m ∉ (s'.threads t).frames := by
  have hview := escape_lockView ha.1 ha.2.1 hs
  have htable : s'.mutexes = s.mutexes := congrArg LockView.table hview
  rw [htable]
  constructor
  · by_cases howner : (s.mutexes m).owner = some t
    · exact .inr howner
    · exact .inl ((h.mutexOk.ring t m).mpr ⟨List.mem_of_mem_take ha.2.2, howner⟩)
  · have hwaits : lockWaits (s'.threads t).frames =
        lockWaits ((s.threads t).frames.drop depth) := by
      have := congrFun (congrArg LockView.waits hview) t
      simpa [LockView.complete, lockView] using this
    have honce := h.inv.waitsOnce t
    have hsplit : s.lockView.waits t = _ := lockWaits_take_drop (s.threads t).frames depth
    rw [hsplit] at honce
    rw [← mem_lockWaits, hwaits]
    intro hdrop
    exact (List.nodup_append.mp honce).2.2 m (mem_lockWaits.mpr ha.2.2) m hdrop rfl

/-! ## Runs with harmless exits -/

/-- The scheduler's invariant, that of the mutex data with exits, and that a
thread not yet created has none. -/
structure InsideOk (s : Kernel) : Prop where
  ok : s.Ok
  inside : s.lockView.Inside
  fresh : ∀ t, s.threadCount ≤ t → s.lockView.held t = [] ∧ s.lockView.waits t = []

theorem lockThreadMutex_exitStep (hu : t ∉ (s.mutexes m).waitingThreads) :
    LockView.ExitStep t s.lockView (s.lockThreadMutex t m).lockView := by
  by_cases howner : (s.mutexes m).owner = some t
  · simp only [lockThreadMutex, if_pos howner]
    exact .same
  · cases ho : (s.mutexes m).owner with
    | none =>
      rw [lockView_lockThreadMutex_free ho]
      exact .acquire m ho
    | some o =>
      have hother : o ≠ t := fun heq => howner (by rw [ho, heq])
      rw [lockView_lockThreadMutex_owned ho hother]
      exact .enqueue m o ho hother hu

theorem unlockThreadMutex_exitStep (s : Kernel) (t m) :
    LockView.ExitStep t s.lockView (s.unlockThreadMutex t m).lockView := by
  by_cases owner : (s.mutexes m).owner = some t
  · rw [lockView_unlockThreadMutex owner]
    exact .release m owner
  · rw [unlockThreadMutex, if_neg owner]
    exact .same

theorem userStep_exitStep (h : s.InsideOk) (hc : s.control = .user)
    (hq : s.queue.first = some t) (hu : LeavesForgotten s a) (hs : s.step a = some s') :
    LockView.ExitStep t s.lockView s'.lockView := by
  have hu := hu hc t hq
  have hs' : s.userStep t a = some s' := by
    unfold step at hs
    rwa [hc, hq] at hs
  cases a with
  | lock m => cases hs'; exact lockThreadMutex_exitStep hu
  | unlock m => cases hs'; exact unlockThreadMutex_exitStep s t m
  | escape depth block =>
    rw [escape_lockView hc hq hs]
    exact .complete _ _ (lockWaits_take_drop _ depth) fun m hm => (hu m hm).1
  | _ =>
    exact (userStep_lockStep_of_other (h.inside.heldOnce t) (h.fresh _ (Nat.le_refl _)) id
      hs').exitStep h.inside

theorem step_exitStep (h : s.InsideOk) (hu : LeavesForgotten s a) (hs : s.step a = some s') :
    s'.lockView = s.lockView ∨ ∃ t, t < s.threadCount ∧ s.queue.first = some t ∧
      LockView.ExitStep t s.lockView s'.lockView := by
  obtain ⟨-, -, hidle⟩ | ⟨t, q, hcur, hcase⟩ := step_cases h.ok hs
  · exact .inl (idleStep_lockView hidle)
  · obtain ⟨hc, -⟩ | ⟨after, any, io, -, -, rfl⟩ | ⟨io, -, -, rfl⟩ := hcase
    · exact .inr ⟨t, hcur.lt_threadCount, hcur.first, userStep_exitStep h hc hcur.first hu hs⟩
    · exact .inl (lockView_handleThreadEvents s t after any)
    · exact .inr ⟨t, hcur.lt_threadCount, hcur.first,
        (returnToFrame_lockStep s t io).exitStep h.inside⟩

theorem step_insideOk (h : s.InsideOk) (hu : LeavesForgotten s a)
    (hs : s.step a = some s') : s'.InsideOk := by
  obtain ⟨hok, hkeeps⟩ := step_ok h.ok hs
  obtain heq | ⟨t, ht, -, hstep⟩ := step_exitStep h hu hs
  · refine ⟨hok, heq ▸ h.inside, ?_⟩
    intro u hu
    rw [heq]
    exact h.fresh u (Nat.le_trans hkeeps.count hu)
  · refine ⟨hok, hstep.inside h.inside, ?_⟩
    intro u hu
    have hle := Nat.le_trans hkeeps.count hu
    have hut : u ≠ t := Nat.ne_of_gt (Nat.lt_of_lt_of_le ht hle)
    rw [(hstep.others hut).1, (hstep.others hut).2]
    exact h.fresh u hle

theorem initial_insideOk : initial.InsideOk := by
  refine ⟨initial_ok, ⟨fun _ _ => rfl, fun _ => List.nodup_nil, ?_, ?_, ?_, ?_⟩,
    initial_lockOk.fresh⟩
  · intro m t ht
    exact absurd ht List.not_mem_nil
  · intro m t ht
    exact absurd ht List.not_mem_nil
  · intro t m
    rw [initial_held]
    simp [lockView, initial]
  · exact initial_lockOk.inv.heldOnce

theorem InsideOk.handed_inside {u} (h : s.InsideOk) (hs : s.step a = some s')
    (hr : Releases s a t m) (hu : (s'.mutexes m).owner = some u) :
    .lockWait m ∈ (s'.threads u).frames := by
  have hpass := releases_passOn (h.inside.heldOnce t)
    (fun ho => (h.inside.held t m).mpr (.inl ho)) hs hr
  obtain ⟨-, hq, owner, hcase⟩ := hr
  have hring : u ∈ (s.mutexes m).waitingThreads := by
    rw [hpass] at hu
    exact List.mem_of_head? hu
  have hut : u ≠ t := fun heq => h.inside.notOwner m u hring (heq ▸ owner)
  have hwaits : s'.lockView.waits u = s.lockView.waits u := by
    have hleaves : LeavesForgotten s a := by
      intro _ v _
      obtain rfl | ⟨rfl, -⟩ := hcase <;> trivial
    obtain heq | ⟨v, -, hv, hstep⟩ := step_exitStep h hleaves hs
    · rw [heq]
    · rw [hq] at hv
      cases hv
      exact (hstep.others hut).2
  rw [← mem_lockWaits]
  have hold := h.inside.waits m u hring
  rw [← hwaits] at hold
  exact hold

/-- **An exit from the wait of `lock-thread-mutex` leaves the request behind**,
unless the code that exits has unlocked the mutex before. When every exit is made
so, the mutexes go to threads inside `lock-thread-mutex` only. -/
theorem abandoned_lock_requests (actions : List Action) {s : Kernel}
    (hr : run step initial actions = some s) :
    (∀ t m depth block s', s.Abandons t m depth → s.step (.escape depth block) = some s' →
      (s'.Forgotten t m ↔ s.Forgotten t m) ∧
      (Along step Undisturbed initial actions →
        ¬ s'.Forgotten t m ∧
        (t ∈ (s'.mutexes m).waitingThreads ∨ (s'.mutexes m).owner = some t) ∧
        .lockWait m ∉ (s'.threads t).frames)) ∧
    (Along step LeavesForgotten initial actions →
      (∀ t m, t ∈ (s.mutexes m).waitingThreads → .lockWait m ∈ (s.threads t).frames) ∧
      ∀ a s' t m u, s.step a = some s' → Releases s a t m → (s'.mutexes m).owner = some u →
        .lockWait m ∈ (s'.threads u).frames) := by
  constructor
  · intro t m depth block s' ha hs
    refine ⟨escape_forgotten ha hs, ?_⟩
    intro hu
    have hok : s.LockOk := run_invariant (fun h hc hs => step_lockOk h hc hs) initial_lockOk hu hr
    refine ⟨?_, hok.abandoned ha hs⟩
    rw [escape_forgotten ha hs]
    exact hok.not_forgotten ha
  · intro hu
    have hok : s.InsideOk :=
      run_invariant (fun h hc hs => step_insideOk h hc hs) initial_insideOk hu hr
    refine ⟨fun t m ht => mem_lockWaits.mp (hok.inside.waits m t ht), ?_⟩
    intro a s' t m u hs
    exact hok.handed_inside hs

/-- An event that unlocks the mutex it was handed, and then exits. -/
example : Along step LeavesForgotten initial [.createThread .no, .lock 0, .yield [], .kernel [],
    .kernel [], .kernel [], .lock 0, .kernel [], .kernel [], .kernel [], .kernel [], .kernel [],
    .signal 1 (some 9), .unlock 0, .yield [], .kernel [], .unlock 0, .escape 2 .no] := by
  decide

/-- Thread 1 waits for the mutex and runs an event that exits from the wait. -/
theorem abandoned_lock_requests_event :
    ∃ s s', run step initial [.createThread .no, .lock 0, .yield [], .kernel [], .kernel [],
        .kernel [], .lock 0, .kernel [], .kernel [], .kernel [], .kernel [], .kernel [],
        .signal 1 (some 9), .yield [], .kernel []] = some s ∧
      s.step (.escape 2 .no) = some s' ∧ s.Abandons 1 0 2 ∧ ¬ s'.Forgotten 1 0 := by
  refine ⟨_, _, rfl, rfl, ⟨rfl, rfl, by decide⟩, ?_⟩
  exact (((abandoned_lock_requests [.createThread .no, .lock 0, .yield [], .kernel [], .kernel [],
    .kernel [], .lock 0, .kernel [], .kernel [], .kernel [], .kernel [], .kernel [],
    .signal 1 (some 9), .yield [], .kernel []] rfl).1 1 0 2 .no _ ⟨rfl, rfl, by decide⟩ rfl).2
      (by decide)).1

/-- Thread 0 then unlocks the mutex, and thread 1 owns it with no call of
`lock-thread-mutex` and no protected region on its stack. -/
theorem abandoned_lock_handed_over :
    ∃ s s' s'', run step initial [.createThread .no, .lock 0, .yield [], .kernel [], .kernel [],
        .kernel [], .lock 0, .kernel [], .kernel [], .kernel [], .kernel [], .kernel [],
        .signal 1 (some 9), .yield [], .kernel []] = some s ∧
      s.Abandons 1 0 2 ∧ s.step (.escape 2 .no) = some s' ∧ ¬ s'.Forgotten 1 0 ∧
      run step s' [.kernel [], .yield [], .kernel [], .kernel [], .kernel [], .unlock 0] =
        some s'' ∧
      (s''.mutexes 0).owner = some 1 ∧ (s''.threads 1).frames = [] := by
  refine ⟨_, _, _, rfl, ⟨rfl, rfl, by decide⟩, rfl, ?_, rfl, rfl, rfl⟩
  rintro ⟨hring, -⟩
  exact hring (List.mem_singleton_self 1)

end Kernel
end MitScheme.Runtime.ThreadKernel
