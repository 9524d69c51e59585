import MitScheme.Runtime.ThreadKernel

/-! # The run queue

The links of the run queue, the execution states, the saved continuations and
the pending events of the threads fit together in every reachable state. -/

namespace MitScheme.Runtime.ThreadKernel
open Lib.LinkedQueue Lib.Machine

def ExecutionState.Runs : ExecutionState → Prop
  | .running | .runningWithoutPreemption => True
  | .waiting | .stopped | .dead => False

namespace Kernel

/-! ## Updates -/

section
variable (s : Kernel) (t u : ThreadId) (f : Thread → Thread)

@[simp] theorem modify_self : (s.modify t f).threads t = f (s.threads t) := by
  simp [modify]

theorem modify_of_ne {t u} (h : u ≠ t) : (s.modify t f).threads u = s.threads u := by
  simp [modify, h]

theorem setState_self (e) : (s.setState t e).threads t = { s.threads t with executionState := e } :=
  modify_self s t _

theorem setState_of_ne {t u} (h : u ≠ t) (e) : (s.setState t e).threads u = s.threads u :=
  modify_of_ne s _ h

@[simp] theorem modify_queue : (s.modify t f).queue = s.queue := rfl
@[simp] theorem modify_control : (s.modify t f).control = s.control := rfl
@[simp] theorem modify_threadCount : (s.modify t f).threadCount = s.threadCount := rfl
@[simp] theorem modify_mutexes : (s.modify t f).mutexes = s.mutexes := rfl

end

/-! ## The invariant -/

/-- The scheduler's data with the threads of `q` on the run queue. Every live
thread but `current` has a saved continuation. -/
structure Sched (s : Kernel) (q : List ThreadId) (current : Option ThreadId) : Prop where
  linked : Linked s.queue q
  absent : ∀ t, s.threadCount ≤ t → (s.threads t).executionState = .dead
  runs : ∀ t, t ∈ q ↔ (s.threads t).executionState.Runs
  saved : ∀ t, (s.threads t).executionState ≠ .dead → current ≠ some t →
    (s.threads t).continuation ≠ none
  quiet : ∀ t, (s.threads t).executionState = .waiting → (s.threads t).blockEvents ≠ .yes →
    (s.threads t).pendingEvents = []
  head : ∀ t, current = some t → q.head? = some t

/-- No thread is lost and no dead thread comes back. -/
structure Keeps (s s' : Kernel) : Prop where
  count : s.threadCount ≤ s'.threadCount
  dead : ∀ t, t < s.threadCount → (s.threads t).executionState = .dead →
    (s'.threads t).executionState = .dead

theorem Keeps.refl (s) : Keeps s s := ⟨Nat.le_refl _, fun _ _ h => h⟩

theorem Keeps.setControl (s c) : Keeps s { s with control := c } :=
  ⟨Nat.le_refl _, fun _ _ h => h⟩

theorem Keeps.trans {s s' s''} (h : Keeps s s') (h' : Keeps s' s'') : Keeps s s'' :=
  ⟨Nat.le_trans h.count h'.count, fun t ht hd =>
    h'.dead t (Nat.lt_of_lt_of_le ht h.count) (h.dead t ht hd)⟩

variable {s s' : Kernel} {q : List ThreadId} {current : Option ThreadId} {t : ThreadId}
  {f : Thread → Thread} {a : Action}

theorem Sched.congr (h : Sched s q current) (hq : s'.queue = s.queue)
    (hc : s'.threadCount = s.threadCount) (ht : s'.threads = s.threads) : Sched s' q current := by
  obtain ⟨h1, h2, h3, h4, h5, h6⟩ := h
  exact ⟨hq ▸ h1, by rwa [hc, ht], by rwa [ht], by rwa [ht], by rwa [ht], h6⟩

theorem Sched.modify (h : Sched s q current)
    (he : (f (s.threads t)).executionState = (s.threads t).executionState)
    (hk : current ≠ some t → (f (s.threads t)).continuation = (s.threads t).continuation)
    (hq : (s.threads t).executionState = .waiting →
      ((s.threads t).blockEvents ≠ .yes → (s.threads t).pendingEvents = []) →
      (f (s.threads t)).blockEvents ≠ .yes → (f (s.threads t)).pendingEvents = []) :
    Sched (s.modify t f) q current := by
  have hstate : ∀ u, ((s.modify t f).threads u).executionState = (s.threads u).executionState := by
    intro u
    by_cases hut : u = t
    · subst hut
      rw [modify_self, he]
    · rw [modify_of_ne s f hut]
  refine ⟨h.linked, ?_, ?_, ?_, ?_, h.head⟩
  · intro u hu
    rw [hstate]
    exact h.absent u hu
  · intro u
    rw [hstate]
    exact h.runs u
  · intro u hd hc
    rw [hstate] at hd
    by_cases hut : u = t
    · subst hut
      rw [modify_self, hk hc]
      exact h.saved u hd hc
    · rw [modify_of_ne s f hut]
      exact h.saved u hd hc
  · intro u hw
    rw [hstate] at hw
    by_cases hut : u = t
    · subst hut
      rw [modify_self]
      exact hq hw (h.quiet u hw)
    · rw [modify_of_ne s f hut]
      exact h.quiet u hw

theorem Sched.modify_other (h : Sched s q current)
    (he : (f (s.threads t)).executionState = (s.threads t).executionState)
    (hk : (f (s.threads t)).continuation = (s.threads t).continuation)
    (hb : (f (s.threads t)).blockEvents = (s.threads t).blockEvents)
    (hp : (f (s.threads t)).pendingEvents = (s.threads t).pendingEvents) :
    Sched (s.modify t f) q current :=
  h.modify he (fun _ => hk) fun _ hq hb' => by rw [hp]; exact hq (hb ▸ hb')

theorem Keeps.modify (he : (f (s.threads t)).executionState = (s.threads t).executionState) :
    Keeps s (s.modify t f) := by
  refine ⟨Nat.le_refl _, fun u _ hd => ?_⟩
  by_cases hut : u = t
  · subst hut
    rw [modify_self, he]
    exact hd
  · rw [modify_of_ne s f hut]
    exact hd

/-! ## Signalling -/

theorem Sched.threadRunning (h : Sched s q current) (ht : t < s.threadCount) (hq : t ∉ q)
    (hk : (s.threads t).continuation ≠ none) (hne : q = [] → current = none) :
    Sched (s.threadRunning t) (q ++ [t]) current := by
  have hother : ∀ u, u ≠ t → (s.threadRunning t).threads u = s.threads u := fun u hut =>
    setState_of_ne s hut .running
  have hself : (s.threadRunning t).threads t = { s.threads t with executionState := .running } :=
    setState_self s t .running
  refine ⟨h.linked.append hq, ?_, ?_, ?_, ?_, ?_⟩
  · intro u hu
    have hut : u ≠ t := by
      rintro rfl
      exact absurd ht (Nat.not_lt.mpr hu)
    rw [hother u hut]
    exact h.absent u hu
  · intro u
    by_cases hut : u = t
    · subst hut
      rw [hself]
      simp [ExecutionState.Runs]
    · rw [hother u hut, ← h.runs u]
      simp [hut]
  · intro u hd hc
    by_cases hut : u = t
    · subst hut
      rw [hself]
      exact hk
    · rw [hother u hut] at hd ⊢
      exact h.saved u hd hc
  · intro u hw
    by_cases hut : u = t
    · subst hut
      rw [hself] at hw
      cases hw
    · rw [hother u hut] at hw ⊢
      exact h.quiet u hw
  · intro u hu
    have := h.head u hu
    cases q with
    | nil => rw [hne rfl] at hu; cases hu
    | cons v q => exact this

theorem keeps_threadRunning (hd : (s.threads t).executionState ≠ .dead) :
    Keeps s (s.threadRunning t) := by
  refine ⟨Nat.le_refl _, fun u _ hdu => ?_⟩
  have hut : u ≠ t := by
    rintro rfl
    exact hd hdu
  simpa only [threadRunning, setState, modify_of_ne s _ hut] using hdu

theorem Sched.nil_current (h : Sched s q current) (hq : q = []) : current = none := by
  cases hc : current with
  | none => rfl
  | some t =>
    have := h.head t hc
    rw [hq] at this
    cases this

theorem Sched.signalThreadEvent (h : Sched s q current) (t event) :
    ∃ added, Sched (s.signalThreadEvent t event) (q ++ added) current := by
  unfold Kernel.signalThreadEvent
  dsimp only
  split
  · rename_i hw
    simp only [modify_self] at hw
    refine ⟨[t], ?_⟩
    have ht : t < s.threadCount := by
      by_contra hc
      rw [h.absent t (Nat.not_lt.mp hc)] at hw
      cases hw.2
    have hnq : t ∉ q := by
      intro hm
      have := (h.runs t).mp hm
      rw [hw.2] at this
      exact this
    have hcur : current ≠ some t := by
      intro hc
      exact hnq (List.mem_of_mem_head? (h.head t hc))
    have hk := h.saved t (by rw [hw.2]; nofun) hcur
    -- the pending event breaks `quiet` until the thread is marked as running
    refine Sched.congr (s := (s.threadRunning t).modify t _)
      ((h.threadRunning ht hnq hk h.nil_current).modify (f := fun x => { x with
        pendingEvents := addPendingEvent event x.pendingEvents }) rfl (fun _ => rfl) ?_) rfl rfl ?_
    · intro hwait
      simp [Kernel.threadRunning, setState] at hwait
    · simp [Kernel.threadRunning, setState, Kernel.modify]
  · rename_i hw
    refine ⟨[], ?_⟩
    rw [List.append_nil]
    refine h.modify rfl (fun _ => rfl) fun hwait _ hb => ?_
    exact absurd ⟨by simpa using hb, by simpa using hwait⟩ hw

@[simp] theorem signalThreadEvent_control (t event) :
    (s.signalThreadEvent t event).control = s.control := by
  unfold signalThreadEvent threadRunning
  dsimp only
  split <;> rfl

@[simp] theorem signalThreadEvent_threadCount (t event) :
    (s.signalThreadEvent t event).threadCount = s.threadCount := by
  unfold signalThreadEvent threadRunning
  dsimp only
  split <;> rfl

theorem signalThreadEvent_threads (u t event) :
    ((s.signalThreadEvent t event).threads u).continuation = (s.threads u).continuation ∧
      ((s.signalThreadEvent t event).threads u).blockEvents = (s.threads u).blockEvents ∧
      ((s.threads u).executionState ≠ .waiting →
        ((s.signalThreadEvent t event).threads u).executionState =
          (s.threads u).executionState) := by
  unfold signalThreadEvent threadRunning setState
  by_cases hut : u = t
  · subst hut
    dsimp only
    split
    · rename_i hw
      simp only [modify_self] at hw ⊢
      exact ⟨trivial, trivial, fun hne => absurd hw.2 hne⟩
    · simp
  · dsimp only
    split
    · simp [modify_of_ne _ _ hut]
    · simp [modify_of_ne _ _ hut]

structure Delivered (s s' : Kernel) : Prop where
  control : s'.control = s.control
  threadCount : s'.threadCount = s.threadCount
  continuation : ∀ u, (s'.threads u).continuation = (s.threads u).continuation
  blockEvents : ∀ u, (s'.threads u).blockEvents = (s.threads u).blockEvents
  state : ∀ u, (s.threads u).executionState ≠ .waiting →
    (s'.threads u).executionState = (s.threads u).executionState

theorem Delivered.refl (s) : Delivered s s :=
  ⟨rfl, rfl, fun _ => rfl, fun _ => rfl, fun _ _ => rfl⟩

theorem Delivered.trans {s s' s''} (h : Delivered s s') (h' : Delivered s' s'') :
    Delivered s s'' where
  control := h'.control.trans h.control
  threadCount := h'.threadCount.trans h.threadCount
  continuation := fun u => (h'.continuation u).trans (h.continuation u)
  blockEvents := fun u => (h'.blockEvents u).trans (h.blockEvents u)
  state := fun u hu => (h'.state u (by rw [h.state u hu]; exact hu)).trans (h.state u hu)

theorem delivered_signalThreadEvent (s t event) : Delivered s (s.signalThreadEvent t event) :=
  ⟨signalThreadEvent_control t event, signalThreadEvent_threadCount t event,
    fun u => (signalThreadEvent_threads u t event).1,
    fun u => (signalThreadEvent_threads u t event).2.1,
    fun u => (signalThreadEvent_threads u t event).2.2⟩

theorem Delivered.keeps {s s'} (h : Delivered s s') : Keeps s s' :=
  ⟨Nat.le_of_eq h.threadCount.symm, fun t _ hd =>
    (h.state t (by rw [hd]; nofun)).trans hd⟩

theorem deliver_spec : ∀ (io : List (ThreadId × Event)) {s : Kernel} {q : List ThreadId},
    Sched s q current → Delivered s (s.deliver io) ∧
      ∃ added, Sched (s.deliver io) (q ++ added) current
  | [], s, q, h => ⟨.refl s, [], by rwa [List.append_nil]⟩
  | (t, event) :: io, s, q, h => by
    rw [deliver]
    split
    · obtain ⟨a, ha⟩ := h.signalThreadEvent t event
      obtain ⟨h1, b, hb⟩ := deliver_spec io ha
      exact ⟨(delivered_signalThreadEvent s t event).trans h1, a ++ b,
        by rwa [← List.append_assoc]⟩
    · exact deliver_spec io h

/-! ## Switching -/

/-- The invariant: in `wait-for-io` the queue is empty; otherwise the first
thread of the queue is the current one. -/
def Ok (s : Kernel) : Prop :=
  (s.control = .idle ∧ Sched s [] none) ∨
    (s.control ≠ .idle ∧ s.control ≠ .fault ∧
      ∃ t q, Sched s (t :: q) (some t) ∧ (s.threads t).continuation = none)

/-- The current thread `t` runs, with `q` behind it. -/
structure Current (s : Kernel) (t : ThreadId) (q : List ThreadId) : Prop where
  sched : Sched s (t :: q) (some t)
  continuation : (s.threads t).continuation = none

section
variable (h : Current s t q)
include h

theorem Current.ok (h1 : s.control ≠ .idle) (h2 : s.control ≠ .fault) :
    s.Ok := .inr ⟨h1, h2, t, q, h.sched, h.continuation⟩

theorem Current.runs : (s.threads t).executionState.Runs :=
  (h.sched.runs t).mp (by simp)

theorem Current.not_waiting : (s.threads t).executionState ≠ .waiting := by
  intro hw
  have := h.runs
  rw [hw] at this
  exact this

theorem Current.not_dead : (s.threads t).executionState ≠ .dead := by
  intro hw
  have := h.runs
  rw [hw] at this
  exact this

theorem Current.first : s.queue.first = some t := h.sched.linked.first

theorem Current.modify (he : (f (s.threads t)).executionState = (s.threads t).executionState)
    (hk : (f (s.threads t)).continuation = (s.threads t).continuation) :
    Current (s.modify t f) t q :=
  ⟨h.sched.modify he (fun _ => hk) fun hw => absurd hw h.not_waiting,
    by rw [modify_self, hk]; exact h.continuation⟩

theorem Current.setControl (c) : Current { s with control := c } t q :=
  ⟨h.sched.congr rfl rfl rfl, h.continuation⟩

theorem Current.setBlockEvents (b) : Current (s.setBlockEvents t b) t q := h.modify rfl rfl

theorem Current.setState {e} (he : e.Runs) :
    Current (s.setState t e) t q ∧ Keeps s (s.setState t e) := by
  have hother : ∀ u, u ≠ t → (s.setState t e).threads u = s.threads u := fun u hut =>
    setState_of_ne s hut e
  have hself := setState_self s t e
  refine ⟨⟨⟨h.sched.linked, ?_, ?_, ?_, ?_, h.sched.head⟩, ?_⟩, Nat.le_refl _, ?_⟩
  · intro u hu
    have hut : u ≠ t := by
      rintro rfl
      exact h.not_dead (h.sched.absent u hu)
    rw [hother u hut]
    exact h.sched.absent u hu
  · intro u
    by_cases hut : u = t
    · subst hut
      rw [hself]
      simpa using he
    · rw [hother u hut]
      exact h.sched.runs u
  · intro u hd hc
    have hut : u ≠ t := fun hut => hc (by rw [hut])
    rw [hother u hut] at hd ⊢
    exact h.sched.saved u hd hc
  · intro u hw
    by_cases hut : u = t
    · subst hut
      rw [hself] at hw
      simp only at hw
      rw [hw] at he
      exact he.elim
    · rw [hother u hut] at hw ⊢
      exact h.sched.quiet u hw
  · rw [hself]
    exact h.continuation
  · intro u _ hd
    have hut : u ≠ t := by
      rintro rfl
      exact h.not_dead hd
    rw [hother u hut]
    exact hd

theorem Current.deliver (io) : Delivered s (s.deliver io) ∧ ∃ q', Current (s.deliver io) t q' := by
  obtain ⟨h1, a, h2⟩ := deliver_spec io h.sched
  exact ⟨h1, q ++ a, h2, by rw [h1.continuation]; exact h.continuation⟩

theorem Current.resumeCurrentThread :
    (s.resumeCurrentThread t).Ok ∧ Keeps s (s.resumeCurrentThread t) := by
  unfold Kernel.resumeCurrentThread
  split
  · exact ⟨(h.setControl _).ok nofun nofun, .setControl s _⟩
  · exact ⟨(h.setControl _).ok nofun nofun, .setControl s _⟩
  · exact ⟨(h.setControl _).ok nofun nofun, .setControl s _⟩

end

theorem Sched.runThread (h : Sched s (t :: q) none) :
    (s.runThread t).Ok ∧ Keeps s (s.runThread t) := by
  have hruns := (h.runs t).mp (by simp)
  have hdead : (s.threads t).executionState ≠ .dead := by
    intro hd
    rw [hd] at hruns
    exact hruns
  have hwait : (s.threads t).executionState ≠ .waiting := by
    intro hd
    rw [hd] at hruns
    exact hruns
  have hcur : Current (s.setContinuation t none) t q := by
    have h' : Sched s (t :: q) (some t) :=
      ⟨h.linked, h.absent, h.runs, fun u hd _ => h.saved u hd nofun, h.quiet,
        fun u hu => by cases hu; rfl⟩
    exact ⟨h'.modify rfl (fun hc => absurd rfl hc) fun hw => absurd hw hwait,
      by simp [Kernel.setContinuation]⟩
  have hkeep : Keeps s (s.setContinuation t none) := Keeps.modify rfl
  unfold Kernel.runThread
  rw [if_pos (show s.queue.first = some t from h.linked.first)]
  split
  · exact ⟨(hcur.setControl _).ok nofun nofun, hkeep.trans (.setControl _ _)⟩
  · rename_i block hb _
    obtain ⟨h1, h2⟩ := (hcur.setBlockEvents block).resumeCurrentThread
    exact ⟨h1, (hkeep.trans (Keeps.modify rfl)).trans h2⟩
  · rename_i hn
    exact absurd hn (h.saved t hdead nofun)

theorem Sched.runFirstThread (h : Sched s q none) :
    (s.runFirstThread).Ok ∧ Keeps s s.runFirstThread := by
  unfold Kernel.runFirstThread
  rw [h.linked.first]
  cases q with
  | nil => exact ⟨.inl ⟨rfl, h.congr rfl rfl rfl⟩, .setControl s _⟩
  | cons t q => exact h.runThread

theorem Current.threadNotRunning (h : Sched s (t :: q) (some t)) {e} (he : ¬e.Runs)
    (hk : e ≠ .dead → (s.threads t).continuation ≠ none)
    (hq : e = .waiting → (s.threads t).pendingEvents = []) :
    (s.threadNotRunning t e).Ok ∧ Keeps s (s.threadNotRunning t e) := by
  have hruns := (h.runs t).mp (by simp)
  have hdead : (s.threads t).executionState ≠ .dead := by
    intro hd
    rw [hd] at hruns
    exact hruns
  obtain ⟨hnq, -⟩ := List.nodup_cons.mp h.linked.nodup
  set s0 : Kernel := { s.setState t e with queue := s.queue.removeFirst t } with hs0
  have hother : ∀ u, u ≠ t → s0.threads u = s.threads u := fun u hut => setState_of_ne s hut e
  have hself : s0.threads t = { s.threads t with executionState := e } := setState_self s t e
  have hs : Sched s0 q none := by
    refine ⟨h.linked.removeFirst, ?_, ?_, ?_, ?_, nofun⟩
    · intro u hu
      have hut : u ≠ t := by
        rintro rfl
        exact hdead (h.absent u hu)
      rw [hother u hut]
      exact h.absent u hu
    · intro u
      by_cases hut : u = t
      · subst hut
        rw [hself]
        exact ⟨fun hm => absurd hm hnq, fun hr => absurd hr he⟩
      · rw [hother u hut, ← h.runs u]
        simp [hut]
    · intro u hd _
      by_cases hut : u = t
      · subst hut
        rw [hself] at hd ⊢
        exact hk hd
      · rw [hother u hut] at hd ⊢
        exact h.saved u hd fun hc => hut (by cases hc; rfl)
    · intro u hw hb
      by_cases hut : u = t
      · subst hut
        rw [hself] at hw ⊢
        exact hq hw
      · rw [hother u hut] at hw hb ⊢
        exact h.quiet u hw hb
  have hkeep : Keeps s s0 := by
    refine ⟨Nat.le_refl _, fun u _ hd => ?_⟩
    have hut : u ≠ t := by
      rintro rfl
      exact hdead hd
    rw [hother u hut]
    exact hd
  obtain ⟨h1, h2⟩ := hs.runFirstThread
  exact ⟨h1, hkeep.trans h2⟩

theorem Current.saveContinuation (h : Current s t q) :
    Sched (s.saveContinuation t) (t :: q) (some t) ∧ Keeps s (s.saveContinuation t) ∧
      ((s.saveContinuation t).threads t).continuation ≠ none := by
  unfold Kernel.saveContinuation Kernel.setContinuation
  exact ⟨h.sched.modify rfl (fun hc => absurd rfl hc) fun hw => absurd hw h.not_waiting,
    Keeps.modify rfl, by simp⟩

theorem Current.yieldThread (h : Current s t q) :
    (s.yieldThread t).Ok ∧ Keeps s (s.yieldThread t) := by
  unfold Kernel.yieldThread
  rw [h.sched.linked.next_head]
  cases q with
  | nil => exact h.resumeCurrentThread
  | cons u q =>
    obtain ⟨h1, h2, h3⟩ := h.saveContinuation
    have hs : Sched { s.saveContinuation t with queue := s.queue.rotate t u } (u :: (q ++ [t]))
        none := by
      refine ⟨h.sched.linked.rotate, h1.absent, ?_, ?_, h1.quiet, nofun⟩
      · intro v
        rw [← h1.runs v]
        simp only [List.mem_cons, List.mem_append, List.not_mem_nil, or_false]
        tauto
      · intro v hd _
        by_cases hvt : v = t
        · subst hvt
          exact h3
        · exact h1.saved v hd fun hc => hvt (by cases hc; rfl)
    obtain ⟨h4, h5⟩ := hs.runThread
    exact ⟨h4, h2.trans ⟨h5.count, h5.dead⟩⟩

theorem Current.suspendCurrentThread (h : Current s t q) (io) :
    (s.suspendCurrentThread t io).Ok ∧ Keeps s (s.suspendCurrentThread t io) := by
  unfold Kernel.suspendCurrentThread
  obtain ⟨h1, q', h2⟩ := (h.setBlockEvents
    (if (s.threads t).blockEvents = .no then .no else .suspended)).deliver io
  refine ⟨(h2.setControl _).ok nofun nofun, ?_⟩
  exact (Keeps.modify rfl).trans ⟨h1.keeps.count, h1.keeps.dead⟩

theorem Current.handleThreadEvents (h : Current s t q) (after any) :
    (s.handleThreadEvents t after any).Ok ∧ Keeps s (s.handleThreadEvents t after any) := by
  unfold Kernel.handleThreadEvents
  split
  · exact ⟨((h.modify rfl rfl).setControl _).ok nofun nofun,
      (Keeps.modify rfl).trans (.setControl _ _)⟩
  · exact ⟨((h.modify rfl rfl).setControl _).ok nofun nofun,
      (Keeps.modify rfl).trans (.setControl _ _)⟩
  · rename_i hp
    cases after with
    | switchIn block =>
      obtain ⟨h1, h2⟩ := (h.setBlockEvents block).resumeCurrentThread
      exact ⟨h1, (Keeps.modify rfl).trans h2⟩
    | resume suspended =>
      dsimp only
      split
      · exact ⟨((h.setBlockEvents _).setControl _).ok nofun nofun,
          (Keeps.modify rfl).trans (.setControl _ _)⟩
      · exact ⟨(h.setControl _).ok nofun nofun, .setControl s _⟩
    | suspend block =>
      dsimp only
      split
      · exact ⟨((h.setBlockEvents _).setControl _).ok nofun nofun,
          (Keeps.modify rfl).trans (.setControl _ _)⟩
      · obtain ⟨h1, h2, h3⟩ := h.saveContinuation
        obtain ⟨h4, h5⟩ := Current.threadNotRunning (e := .waiting) h1 id (fun _ => h3)
          (fun _ => by simpa [Kernel.saveContinuation, Kernel.setContinuation] using hp)
        exact ⟨h4, h2.trans h5⟩
    | setBlock block =>
      exact ⟨((h.setBlockEvents _).setControl _).ok nofun nofun,
        (Keeps.modify rfl).trans (.setControl _ _)⟩

/-! ## Mutexes and joining -/

/-- Some signals, in any order, and changes to fields the scheduler does not
read. -/
structure Signals (s s' : Kernel) : Prop where
  sched : ∀ {q current}, Sched s q current → ∃ added, Sched s' (q ++ added) current
  delivered : Delivered s s'

theorem Signals.refl (s) : Signals s s :=
  ⟨fun h => ⟨[], by rwa [List.append_nil]⟩, .refl s⟩

theorem Signals.trans {s s' s''} (h : Signals s s') (h' : Signals s' s'') :
    Signals s s'' where
  sched := fun hs => by
    obtain ⟨a, ha⟩ := h.sched hs
    obtain ⟨b, hb⟩ := h'.sched ha
    exact ⟨a ++ b, by rwa [← List.append_assoc]⟩
  delivered := h.delivered.trans h'.delivered

theorem signals_signalThreadEvent (s t event) : Signals s (s.signalThreadEvent t event) :=
  ⟨fun h => h.signalThreadEvent t event, delivered_signalThreadEvent s t event⟩

theorem signals_modify (he : (f (s.threads t)).executionState = (s.threads t).executionState)
    (hk : (f (s.threads t)).continuation = (s.threads t).continuation)
    (hb : (f (s.threads t)).blockEvents = (s.threads t).blockEvents)
    (hp : (f (s.threads t)).pendingEvents = (s.threads t).pendingEvents) :
    Signals s (s.modify t f) := by
  refine ⟨fun h => ⟨[], by rw [List.append_nil]; exact h.modify_other he hk hb hp⟩, rfl, rfl, ?_, ?_,
    ?_⟩
  · intro u
    by_cases hut : u = t
    · subst hut
      rw [modify_self, hk]
    · rw [modify_of_ne s f hut]
  · intro u
    by_cases hut : u = t
    · subst hut
      rw [modify_self, hb]
    · rw [modify_of_ne s f hut]
  · intro u _
    by_cases hut : u = t
    · subst hut
      rw [modify_self, he]
    · rw [modify_of_ne s f hut]

theorem signals_setMutex (s m x) : Signals s (s.setMutex m x) :=
  ⟨fun h => ⟨[], by rw [List.append_nil]; exact h.congr rfl rfl rfl⟩, rfl, rfl, fun _ => rfl,
    fun _ => rfl, fun _ _ => rfl⟩

theorem signals_handOff (s m) : Signals s (s.handOff m) := by
  unfold handOff
  split
  · exact signals_setMutex s m _
  · exact (signals_setMutex s m _).trans (signals_signalThreadEvent _ _ _)

theorem signals_disassociateLoop (t : ThreadId) :
    ∀ (ms : List MutexId) (s : Kernel), Signals s (s.disassociateLoop t ms)
  | [], s => .refl s
  | m :: ms, s => by
    rw [disassociateLoop]
    refine Signals.trans ?_ (signals_disassociateLoop t ms _)
    split
    · exact signals_handOff s m
    · exact signals_setMutex s m _

theorem signals_disassociateThreadMutexes (s t) : Signals s (s.disassociateThreadMutexes t) :=
  (signals_disassociateLoop t _ s).trans (signals_modify rfl rfl rfl rfl)

theorem signals_releaseLoop (t : ThreadId) :
    ∀ (l : List (ThreadId × Event)) (s : Kernel), Signals s (s.releaseLoop t l)
  | [], s => .refl s
  | (u, event) :: l, s => by
    rw [releaseLoop]
    exact ((signals_modify (f := fun x => { x with joinedTo := x.joinedTo.filter (· ≠ t) })
      rfl rfl rfl rfl).trans (signals_signalThreadEvent _ _ _)).trans (signals_releaseLoop t l _)

theorem signals_releaseJoinedThreads (s t v) : Signals s (s.releaseJoinedThreads t v) :=
  (signals_modify (f := fun x => { x with exitValue := v }) rfl rfl rfl rfl).trans
    (signals_releaseLoop t _ _)

theorem signals_disassociateJoined (t : ThreadId) :
    ∀ (l : List ThreadId) (s : Kernel), Signals s (s.disassociateJoined t l)
  | [], s => .refl s
  | u :: l, s => by
    rw [disassociateJoined]
    exact (signals_modify (f := fun x => { x with
      joinedThreads := x.joinedThreads.filter (·.1 ≠ t) }) rfl rfl rfl rfl).trans
        (signals_disassociateJoined t l _)

section
variable (h : Current s t q)
include h

theorem Current.signals (hs : Signals s s') : (∃ q', Current s' t q') ∧ Keeps s s' := by
  obtain ⟨a, ha⟩ := hs.sched h.sched
  exact ⟨⟨q ++ a, ha, by rw [hs.delivered.continuation]; exact h.continuation⟩,
    hs.delivered.keeps⟩

theorem Current.ok_signals (hc : s.control = .user) (hs : Signals s s') : s'.Ok ∧ Keeps s s' := by
  obtain ⟨⟨q', h1⟩, h2⟩ := h.signals hs
  have hc' := hs.delivered.control.trans hc
  exact ⟨h1.ok (by rw [hc']; nofun) (by rw [hc']; nofun), h2⟩

/-! ## Steps -/

theorem Current.createThread (hc : s.control = .user) (block) :
    (s.createThread block).Ok ∧ Keeps s (s.createThread block) := by
  have hnew := h.sched.absent s.threadCount (Nat.le_refl _)
  have hother : ∀ u, u ≠ s.threadCount → (s.createThread block).threads u = s.threads u :=
    fun u hu => Function.update_of_ne hu _ _
  have hself : (s.createThread block).threads s.threadCount =
      { makeThread with continuation := some block } := Function.update_self _ _ _
  have hnq : s.threadCount ∉ t :: q := by
    intro hm
    have := (h.sched.runs _).mp hm
    rw [hnew] at this
    exact this
  have hs : Sched (s.createThread block) (t :: q ++ [s.threadCount]) (some t) := by
    refine ⟨h.sched.linked.append hnq, ?_, ?_, ?_, ?_, h.sched.head⟩
    · intro u hu
      have hu' : s.threadCount + 1 ≤ u := hu
      rw [hother u (Nat.ne_of_gt hu')]
      exact h.sched.absent u (Nat.le_of_succ_le hu')
    · intro u
      by_cases hun : u = s.threadCount
      · subst hun
        rw [hself]
        simp [makeThread, ExecutionState.Runs]
      · rw [hother u hun, ← h.sched.runs u]
        simp [hun]
    · intro u hd hcur
      by_cases hun : u = s.threadCount
      · subst hun
        rw [hself]
        nofun
      · rw [hother u hun] at hd ⊢
        exact h.sched.saved u hd hcur
    · intro u hw
      by_cases hun : u = s.threadCount
      · subst hun
        rw [hself] at hw
        cases hw
      · rw [hother u hun] at hw ⊢
        exact h.sched.quiet u hw
  have hne : t ≠ s.threadCount := fun ht => hnq (by simp [← ht])
  have hcur : Current (s.createThread block) t (q ++ [s.threadCount]) :=
    ⟨hs, by rw [hother t hne]; exact h.continuation⟩
  refine ⟨hcur.ok (by rw [Kernel.createThread, hc]; nofun) (by rw [Kernel.createThread, hc]; nofun),
    Nat.le_succ _, fun u hu hd => ?_⟩
  rw [hother u (Nat.ne_of_lt hu)]
  exact hd

theorem Current.restartThread (hc : s.control = .user) (u discardEvents event) :
    (s.restartThread u discardEvents event).Ok ∧
      Keeps s (s.restartThread u discardEvents event) := by
  unfold Kernel.restartThread
  split
  · rename_i hstop
    have hut : u ≠ t := by
      rintro rfl
      have := h.runs
      rw [hstop] at this
      exact this
    -- discarding and signalling leave a stopped thread off the queue
    obtain ⟨s1, hs1, q1, h1, hk1, he1, hc1⟩ : ∃ s1, s1 = (if discardEvents then
        s.modify u (fun x => { x with pendingEvents := [] }) else s) ∧
        ∃ q1, Current s1 t q1 ∧ Keeps s s1 ∧ (s1.threads u).executionState = .stopped ∧
          s1.control = .user := by
      refine ⟨_, rfl, q, ?_⟩
      split
      · refine ⟨⟨h.sched.modify rfl (fun _ => rfl) fun hw => ?_, ?_⟩, Keeps.modify rfl, ?_, hc⟩
        · rw [hstop] at hw
          cases hw
        · rw [modify_of_ne s _ (Ne.symm hut)]
          exact h.continuation
        · rw [modify_self]
          exact hstop
      · exact ⟨h, .refl s, hstop, hc⟩
    have hsig : Signals s1 (if event = none then s1 else s1.signalThreadEvent u event) := by
      split
      · exact .refl s1
      · exact signals_signalThreadEvent s1 u event
    obtain ⟨⟨q2, h2⟩, hk2⟩ := h1.signals hsig
    dsimp only
    rw [← hs1]
    generalize (if event = none then s1 else s1.signalThreadEvent u event) = s2 at hsig h2 hk2
    have he2 : (s2.threads u).executionState = .stopped := by
      rw [hsig.delivered.state u (by rw [he1]; nofun)]
      exact he1
    have hnq : u ∉ t :: q2 := by
      intro hm
      have := (h2.sched.runs u).mp hm
      rw [he2] at this
      exact this
    have hlt : u < s2.threadCount := by
      by_contra hge
      rw [h2.sched.absent u (Nat.not_lt.mp hge)] at he2
      cases he2
    have h3 := h2.sched.threadRunning hlt hnq
      (h2.sched.saved u (by rw [he2]; nofun) fun hcur => hut (by cases hcur; rfl)) nofun
    have hcur : Current (s2.threadRunning u) t (q2 ++ [u]) := by
      refine ⟨h3, ?_⟩
      rw [show (s2.threadRunning u).threads t = s2.threads t from
        setState_of_ne s2 (Ne.symm hut) .running]
      exact h2.continuation
    have hc2 : (s2.threadRunning u).control = .user := hsig.delivered.control.trans hc1
    exact ⟨hcur.ok (by rw [hc2]; nofun) (by rw [hc2]; nofun),
      (hk1.trans hk2).trans (keeps_threadRunning (by rw [he2]; nofun))⟩
  · exact ⟨h.ok (by rw [hc]; nofun) (by rw [hc]; nofun), .refl s⟩

theorem Current.finishExit : (s.finishExit t).Ok ∧ Keeps s (s.finishExit t) := by
  unfold Kernel.finishExit
  dsimp only
  generalize hs1 : (((s.disassociateJoined t (s.threads t).joinedTo).modify t
    fun x => { x with joinedTo := [], frames := [] }).disassociateThreadMutexes t) = s1
  have h1 : Signals s s1 := by
    rw [← hs1]
    exact ((signals_disassociateJoined t _ s).trans
      (signals_modify (f := fun x => { x with joinedTo := [], frames := [] })
        rfl rfl rfl rfl)).trans (signals_disassociateThreadMutexes _ t)
  have h2 : Signals s1 (if (s1.threads t).exitValue = .none then
      s1.releaseJoinedThreads t .value else s1) := by
    split
    · exact signals_releaseJoinedThreads s1 t .value
    · exact .refl s1
  obtain ⟨⟨q', h3⟩, hk⟩ := h.signals (h1.trans h2)
  obtain ⟨h4, h5⟩ := Current.threadNotRunning (e := .dead) h3.sched id
    (fun hd => absurd rfl hd) nofun
  exact ⟨h4, hk.trans h5⟩

theorem Current.signalSelf (hc : s.control = .user) (event) :
    (s.signalSelf t event).Ok ∧ Keeps s (s.signalSelf t event) := by
  unfold Kernel.signalSelf
  have h1 : Current (s.modify t fun x => { x with
      blockEvents := .yes
      pendingEvents := addPendingEvent event x.pendingEvents }) t q := h.modify rfl rfl
  dsimp only
  split
  · exact ⟨(h1.setControl _).ok nofun nofun, (Keeps.modify rfl).trans (.setControl _ _)⟩
  · exact ⟨h1.ok (by rw [modify_control, hc]; nofun) (by rw [modify_control, hc]; nofun),
      Keeps.modify rfl⟩

theorem Current.lockThreadMutex (hc : s.control = .user) (m) :
    (s.lockThreadMutex t m).Ok ∧ Keeps s (s.lockThreadMutex t m) := by
  have hadd : Signals s (s.modify t fun x => { x with mutexes := m :: x.mutexes }) :=
    signals_modify rfl rfl rfl rfl
  unfold Kernel.lockThreadMutex
  dsimp only
  split
  · exact h.ok_signals hc (.refl s)
  · split
    · exact h.ok_signals hc (hadd.trans (signals_setMutex _ m _))
    · obtain ⟨⟨q', h1⟩, hk⟩ := h.signals ((hadd.trans (signals_setMutex _ m _)).trans
        (signals_modify (t := t) (f := fun x => { x with frames := .lockWait m :: x.frames })
          rfl rfl rfl rfl))
      refine ⟨Current.ok ⟨h1.sched.congr rfl rfl rfl, h1.continuation⟩ nofun nofun,
        hk.count, hk.dead⟩

theorem Current.returnToFrame (io) :
    (s.returnToFrame t io).Ok ∧ Keeps s (s.returnToFrame t io) := by
  unfold Kernel.returnToFrame
  split
  · split
    · exact ⟨((h.modify rfl rfl).setControl _).ok nofun nofun,
        (Keeps.modify rfl).trans (.setControl _ _)⟩
    · exact h.suspendCurrentThread io
  · exact ⟨(h.setControl _).ok nofun nofun, .setControl s _⟩

theorem Current.timerInterrupt (io) : (s.timerInterrupt io).Ok ∧ Keeps s (s.timerInterrupt io) := by
  obtain ⟨h1, q', h2⟩ := h.deliver io
  unfold Kernel.timerInterrupt
  dsimp only
  rw [h2.first]
  dsimp only
  rw [if_neg (by rw [h2.continuation]; nofun)]
  split
  · obtain ⟨h3, h4⟩ := h2.yieldThread
    exact ⟨h3, h1.keeps.trans h4⟩
  · obtain ⟨h3, h4⟩ := h2.resumeCurrentThread
    exact ⟨h3, h1.keeps.trans h4⟩

theorem Current.beginExit : (s.beginExit t).Ok ∧ Keeps s (s.beginExit t) :=
  ⟨((h.modify rfl rfl).setControl _).ok nofun nofun, (Keeps.modify rfl).trans (.setControl _ _)⟩

theorem Current.setThreadEventBlock (hc : s.control = .user) (block) :
    (s.setThreadEventBlock t block).Ok ∧ Keeps s (s.setThreadEventBlock t block) := by
  unfold Kernel.setThreadEventBlock
  split
  · exact ⟨(h.setControl _).ok nofun nofun, .setControl s _⟩
  · exact ⟨(h.setBlockEvents block).ok (by rw [Kernel.setBlockEvents, modify_control, hc]; nofun)
      (by rw [Kernel.setBlockEvents, modify_control, hc]; nofun), Keeps.modify rfl⟩

theorem Current.userStep (hc : s.control = .user) (hs : s.userStep t a = some s') :
    s'.Ok ∧ Keeps s s' := by
  have hok : s.Ok ∧ Keeps s s := h.ok_signals hc (.refl s)
  cases a with simp only [Kernel.userStep] at hs
  | createThread block => cases hs; exact h.createThread hc block
  | suspend io => cases hs; exact h.suspendCurrentThread io
  | stop =>
    cases hs
    obtain ⟨h1, h2, h3⟩ := h.saveContinuation
    obtain ⟨h4, h5⟩ := Current.threadNotRunning (e := .stopped) h1 id (fun _ => h3) nofun
    exact ⟨h4, h2.trans h5⟩
  | restart u discardEvents event =>
    split at hs
    · cases hs; exact h.restartThread hc u discardEvents event
    · cases hs
  | yield io =>
    cases hs
    obtain ⟨h1, hk1⟩ := h.setState (e := .running) trivial
    obtain ⟨h2, q', h3⟩ := h1.deliver io
    obtain ⟨h4, h5⟩ := h3.yieldThread
    exact ⟨h4, (hk1.trans h2.keeps).trans h5⟩
  | exit => cases hs; exact h.beginExit
  | signal u event =>
    split at hs
    · cases hs
      unfold Kernel.signal
      split
      · exact h.signalSelf hc event
      · split
        · exact hok
        · exact h.ok_signals hc (signals_signalThreadEvent s u event)
    · cases hs
  | join u event =>
    split at hs
    · cases hs
      unfold Kernel.joinThread
      split
      · exact hok
      · split
        · exact h.ok_signals hc ((signals_modify (f := fun x => { x with
            joinedThreads := (t, event) :: x.joinedThreads }) rfl rfl rfl rfl).trans
            (signals_modify rfl rfl rfl rfl))
        · exact hok
        · exact h.signalSelf hc event
    · cases hs
  | detach u =>
    split at hs
    · cases hs
      unfold Kernel.detachThread
      split
      · exact hok
      · exact h.ok_signals hc (signals_releaseJoinedThreads s u .detached)
    · cases hs
  | setEventBlock block => cases hs; exact h.setThreadEventBlock hc block
  | allowDelivery io =>
    cases hs
    obtain ⟨h1, q', h2⟩ := (h.setBlockEvents .no).deliver io
    exact ⟨(h2.setControl _).ok nofun nofun,
      ((Keeps.modify rfl).trans h1.keeps).trans (.setControl _ _)⟩
  | allowPreempt allow =>
    cases hs
    obtain ⟨h1, h2⟩ := h.setState (e := if allow then .running else .runningWithoutPreemption)
      (by cases allow <;> trivial)
    exact ⟨h1.ok (by rw [Kernel.setState, modify_control, hc]; nofun)
      (by rw [Kernel.setState, modify_control, hc]; nofun), h2⟩
  | lock m => cases hs; exact h.lockThreadMutex hc m
  | unlock m =>
    cases hs
    unfold Kernel.unlockThreadMutex
    split
    · exact h.ok_signals hc ((signals_modify (f := fun x => { x with
        mutexes := x.mutexes.filter (· ≠ m) }) rfl rfl rfl rfl).trans (signals_handOff _ m))
    · exact hok
  | tryLock m =>
    cases hs
    unfold Kernel.tryLockThreadMutex
    split
    · exact h.ok_signals hc ((signals_setMutex s m _).trans (signals_modify rfl rfl rfl rfl))
    · exact hok
  | «return» =>
    split at hs
    · cases hs
      exact ⟨(((h.modify rfl rfl).setBlockEvents _).setControl _).ok nofun nofun,
        ((Keeps.modify rfl).trans (Keeps.modify rfl)).trans (.setControl _ _)⟩
    · cases hs; exact h.finishExit
    · cases hs; exact h.beginExit
    · cases hs
  | escape depth block =>
    split at hs
    · cases hs
    · cases hs
      obtain ⟨h1, h2⟩ := Current.setThreadEventBlock (h.modify (f := fun x => { x with
        frames := (s.threads t).frames.drop depth }) rfl rfl) hc block
      exact ⟨h1, (Keeps.modify rfl).trans h2⟩
  | timer io => cases hs; exact h.timerInterrupt io
  | kernel io => cases hs

end

theorem Sched.idleStep (h : Sched s [] none) (hc : s.control = .idle)
    (hs : s.idleStep a = some s') : s'.Ok ∧ Keeps s s' := by
  cases a <;> try cases hs
  case timer io =>
    obtain ⟨h1, added, h2⟩ := deliver_spec io h
    unfold Kernel.timerInterrupt
    dsimp only
    rw [h2.linked.first]
    cases added with
    | nil => exact ⟨.inl ⟨h1.control.trans hc, h2⟩, h1.keeps⟩
    | cons t q =>
      have hruns := (h2.runs t).mp (by simp)
      have hsaved := h2.saved t (fun hd => by rw [hd] at hruns; exact hruns) nofun
      simp only [List.nil_append, List.head?_cons]
      rw [if_pos (Option.isSome_iff_ne_none.mpr hsaved)]
      obtain ⟨h3, h4⟩ := h2.runThread
      exact ⟨h3, h1.keeps.trans h4⟩
  case kernel io =>
    obtain ⟨h1, added, h2⟩ := deliver_spec io h
    obtain ⟨h3, h4⟩ := h2.runFirstThread
    exact ⟨h3, h1.keeps.trans h4⟩

theorem step_cases (h : s.Ok) (hs : s.step a = some s') :
    (s.control = .idle ∧ Sched s [] none ∧ s.idleStep a = some s') ∨ ∃ t q, Current s t q ∧
        ((s.control = .user ∧ s.userStep t a = some s') ∨
          (∃ after any io, s.control = .events after any ∧ a = .kernel io ∧
            s' = s.handleThreadEvents t after any) ∨
          ∃ io, s.control = .return ∧ a = .kernel io ∧ s' = s.returnToFrame t io) := by
  unfold step at hs
  rcases h with ⟨hc, hidle⟩ | ⟨h1, h2, t, q, hsched, hk⟩
  · rw [hc] at hs
    exact .inl ⟨hc, hidle, hs⟩
  · have hcur : Current s t q := ⟨hsched, hk⟩
    refine .inr ⟨t, q, hcur, ?_⟩
    rw [hcur.first] at hs
    cases hc : s.control with rw [hc] at hs
    | idle => exact absurd hc h1
    | fault => exact absurd hc h2
    | user =>
      exact .inl ⟨rfl, hs⟩
    | events after any =>
      cases a <;> try cases hs
      simp only [kernelStep, hc] at hs
      cases hs
      exact .inr (.inl ⟨after, any, _, rfl, rfl, rfl⟩)
    | «return» =>
      cases a <;> try cases hs
      simp only [kernelStep, hc] at hs
      cases hs
      exact .inr (.inr ⟨_, rfl, rfl, rfl⟩)

theorem step_ok (h : s.Ok) (hs : s.step a = some s') : s'.Ok ∧ Keeps s s' := by
  obtain ⟨hc, hidle, hs⟩ | ⟨t, q, hcur, hcase⟩ := step_cases h hs
  · exact hidle.idleStep hc hs
  · obtain ⟨hc, hs⟩ | ⟨after, any, io, -, -, rfl⟩ | ⟨io, -, -, rfl⟩ := hcase
    · exact hcur.userStep hc hs
    · exact hcur.handleThreadEvents after any
    · exact hcur.returnToFrame io

theorem initial_ok : initial.Ok := by
  refine .inr ⟨nofun, nofun, 0, [], ⟨linked_empty.append (by simp), ?_, ?_, ?_, ?_, ?_⟩, rfl⟩
  · intro t ht
    have : t ≠ 0 := Nat.ne_of_gt ht
    simp [initial, this]
  · intro t
    by_cases ht : t = 0
    · subst ht
      simp [initial, makeThread, ExecutionState.Runs]
    · simp [initial, ht, ExecutionState.Runs]
  · intro t hd hc
    have ht : t ≠ 0 := fun ht => hc (by rw [ht])
    simp [initial, ht] at hd
  · intro t hw
    by_cases ht : t = 0
    · subst ht
      simp [initial, makeThread] at hw
    · simp [initial, ht] at hw
  · intro t ht
    cases ht
    rfl

theorem run_ok {actions} (h : s.Ok) (hr : run step s actions = some s') : s'.Ok :=
  run_invariant' (I := Ok) (fun hi hs => (step_ok hi hs).1) h hr

theorem run_keeps {actions} (h : s.Ok) (hr : run step s actions = some s') : Keeps s s' := by
  have hi : s'.Ok ∧ Keeps s s' := run_invariant' (I := fun x => x.Ok ∧ Keeps s x)
    (fun hi hs => ⟨(step_ok hi.1 hs).1, hi.2.trans (step_ok hi.1 hs).2⟩) ⟨h, .refl s⟩ hr
  exact hi.2

structure RunQueue (s : Kernel) : Prop where
  /-- The queue is a finite list without repetition, from `first-running-thread`
  to `last-running-thread`, of exactly the running threads. -/
  queue : ∃ q, Linked s.queue q ∧
    ∀ t, t ∈ q ↔ t < s.threadCount ∧ (s.threads t).executionState.Runs
  saved : ∀ t, t < s.threadCount → (s.threads t).executionState ≠ .dead →
    ¬(s.threads t).executionState.Runs → (s.threads t).continuation ≠ none
  quiet : ∀ t, t < s.threadCount → (s.threads t).executionState = .waiting →
    (s.threads t).blockEvents ≠ .yes → (s.threads t).pendingEvents = []

theorem Sched.runQueue (h : Sched s q current) (hc : ∀ t, current = some t → t ∈ q) :
    RunQueue s where
  queue := by
    refine ⟨q, h.linked, fun t => ⟨fun hm => ⟨?_, (h.runs t).mp hm⟩, fun hr => (h.runs t).mpr hr.2⟩⟩
    by_contra hge
    have hruns := (h.runs t).mp hm
    rw [h.absent t (Nat.not_lt.mp hge)] at hruns
    exact hruns
  saved := fun t _ hd hr => h.saved t hd fun hcur => hr ((h.runs t).mp (hc t hcur))
  quiet := fun t _ => h.quiet t

theorem Ok.runQueue (h : s.Ok) : RunQueue s := by
  rcases h with ⟨-, h⟩ | ⟨-, -, t, q, h, -⟩
  · exact h.runQueue nofun
  · exact h.runQueue fun u hu => by
      cases hu
      simp

theorem Ok.not_fault (h : s.Ok) : s.control ≠ .fault := by
  rcases h with ⟨h, -⟩ | ⟨-, h, -⟩
  · rw [h]
    nofun
  · exact h

/-- **The run queue holds exactly the running threads.** In every state that
any sequence of kernel calls, events and timer interrupts reaches, the links
from the first to the last running thread spell out a list of exactly the
running threads, each once; every other live thread has a saved continuation,
and one that waits and can be interrupted has no pending event. A dead thread
stays dead and off the queue. `run-thread` always finds its continuation. -/
theorem run_queue_sound (actions : List Action) {s : Kernel}
    (hr : run step initial actions = some s) :
    RunQueue s ∧ s.control ≠ .fault ∧
      ∀ t, t < s.threadCount → (s.threads t).executionState = .dead →
        ∀ (later : List Action) (s' : Kernel), run step s later = some s' →
          (s'.threads t).executionState = .dead ∧ ∀ q, Linked s'.queue q → t ∉ q := by
  have hok := run_ok initial_ok hr
  refine ⟨hok.runQueue, hok.not_fault, fun t ht hd later s' hr' => ?_⟩
  have hd' := (run_keeps hok hr').dead t ht hd
  refine ⟨hd', fun q hq hm => ?_⟩
  obtain ⟨q', hq', hruns⟩ := (run_ok hok hr').runQueue.queue
  rw [hq.unique hq'] at hm
  have := ((hruns t).mp hm).2
  rw [hd'] at this
  exact this

/-- Two threads: the second waits, and a timer event wakes it. -/
theorem run_queue_sound_two_threads :
    ∃ s, run step initial [.createThread .no, .yield [], .kernel [], .kernel [], .kernel [],
        .suspend [], .kernel [], .kernel [], .kernel [], .kernel [], .timer [(1, some 0)],
        .kernel []] = some s ∧
      RunQueue s ∧ s.control ≠ .fault ∧
      ∀ t, t < s.threadCount → (s.threads t).executionState = .dead →
        ∀ (later : List Action) (s' : Kernel), run step s later = some s' →
          (s'.threads t).executionState = .dead ∧ ∀ q, Linked s'.queue q → t ∉ q := by
  refine ⟨_, rfl, ?_⟩
  exact run_queue_sound [.createThread .no, .yield [], .kernel [], .kernel [], .kernel [],
    .suspend [], .kernel [], .kernel [], .kernel [], .kernel [], .timer [(1, some 0)],
    .kernel []] rfl

end Kernel

end MitScheme.Runtime.ThreadKernel
