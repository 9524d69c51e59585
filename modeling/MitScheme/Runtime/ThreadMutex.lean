import MitScheme.Runtime.ThreadQueue

/-! # Thread mutexes

Ownership, the waiting rings and `thread/mutexes` in every reachable state. The
mutex data of the kernel is a machine of its own, and each step of the kernel is
one of its steps. -/

namespace MitScheme.Runtime.ThreadKernel
open Lib.LinkedQueue Lib.Machine Function

/-! ## The mutex data -/

/-- The calls of `lock-thread-mutex` that wait, innermost first. -/
def lockWaits (frames : List Frame) : List MutexId :=
  frames.filterMap fun
    | .lockWait m => some m
    | _ => none

theorem mem_lockWaits {frames m} : m ∈ lockWaits frames ↔ .lockWait m ∈ frames := by
  rw [lockWaits, List.mem_filterMap]
  constructor
  · rintro ⟨frame, hf, he⟩
    cases frame with
    | event block after => cases he
    | lockWait n =>
      cases he
      exact hf
    | exiting => cases he
  · intro hm
    exact ⟨_, hm, rfl⟩

theorem lockWaits_take_drop (frames depth) :
    lockWaits frames = lockWaits (frames.take depth) ++ lockWaits (frames.drop depth) := by
  rw [lockWaits, lockWaits, lockWaits, ← List.filterMap_append, List.take_append_drop]

structure LockView where
  held : ThreadId → List MutexId
  waits : ThreadId → List MutexId
  table : MutexId → Mutex
  calls : Nat
  call : ThreadId → MutexId → Nat

/-! ## One mutex -/

namespace Mutex

def passOn (x : Mutex) : Mutex := ⟨x.waitingThreads.head?, x.waitingThreads.tail⟩

def leave (t : ThreadId) (x : Mutex) : Mutex :=
  if x.owner = some t then x.passOn else { x with waitingThreads := x.waitingThreads.erase t }

/-- A mutex with the threads that wait for it, their lock calls numbered. -/
structure Good (x : Mutex) (waits : ThreadId → Prop) (call : ThreadId → Nat) (calls : Nat) :
    Prop where
  free : x.owner = none → x.waitingThreads = []
  ring : ∀ t, t ∈ x.waitingThreads ↔ waits t ∧ x.owner ≠ some t
  order : x.waitingThreads.Pairwise fun t u => call t < call u
  called : ∀ t ∈ x.waitingThreads, call t < calls

variable {x : Mutex} {waits waits' : ThreadId → Prop} {call call' : ThreadId → Nat}
  {calls calls' : Nat} {t : ThreadId}

section
variable (h : x.Good waits call calls)
include h

theorem Good.nodup : x.waitingThreads.Nodup := by
  refine h.order.imp ?_
  intro a b hab heq
  subst heq
  exact Nat.lt_irrefl _ hab

theorem Good.not_waits (free : x.owner = none) (t) : ¬ waits t := by
  intro hw
  have hm := (h.ring t).mpr ⟨hw, by rw [free]; nofun⟩
  rw [h.free free] at hm
  exact absurd hm List.not_mem_nil

theorem Good.congr (hcalls : calls ≤ calls')
    (hwaits : ∀ t, x.owner ≠ some t → (waits' t ↔ waits t))
    (hcall : ∀ t ∈ x.waitingThreads, call' t = call t) : x.Good waits' call' calls' := by
  refine ⟨h.free, ?_, ?_, ?_⟩
  · intro t
    rw [h.ring]
    constructor
    · rintro ⟨hw, ho⟩
      exact ⟨(hwaits t ho).mpr hw, ho⟩
    · rintro ⟨hw, ho⟩
      exact ⟨(hwaits t ho).mp hw, ho⟩
  · refine h.order.imp_of_mem ?_
    intro a b ha hb hab
    rw [hcall a ha, hcall b hb]
    exact hab
  · intro t ht
    rw [hcall t ht]
    exact Nat.lt_of_lt_of_le (h.called t ht) hcalls

theorem Good.acquire (free : x.owner = none) (t) :
    Good { x with owner := some t } waits call calls := by
  have hring := h.free free
  refine ⟨nofun, ?_, h.order, h.called⟩
  intro u
  simp [hring, h.not_waits free u]

theorem Good.enqueue {o} (owned : x.owner = some o) (other : o ≠ t) (fresh : ¬ waits t) :
    Good { x with waitingThreads := x.waitingThreads ++ [t] } (fun u => u = t ∨ waits u)
      (update call t calls) (calls + 1) := by
  have hne : ∀ u ∈ x.waitingThreads, u ≠ t := by
    intro u hu heq
    subst heq
    exact fresh ((h.ring u).mp hu).1
  refine ⟨?_, ?_, ?_, ?_⟩
  · intro hn
    rw [owned] at hn
    cases hn
  · intro u
    rw [List.mem_append, List.mem_singleton, h.ring, owned]
    by_cases hut : u = t
    · subst hut
      simp [other]
    · simp [hut]
  · refine List.pairwise_append.mpr ⟨?_, List.pairwise_singleton _ _, ?_⟩
    · refine h.order.imp_of_mem ?_
      intro a b ha hb hab
      rwa [update_of_ne (hne a ha), update_of_ne (hne b hb)]
    · intro a ha b hb
      rw [List.mem_singleton] at hb
      subst hb
      rw [update_of_ne (hne a ha), update_self]
      exact h.called a ha
  · intro u hu
    rw [List.mem_append, List.mem_singleton] at hu
    obtain hu | rfl := hu
    · rw [update_of_ne (hne u hu)]
      exact Nat.lt_succ_of_lt (h.called u hu)
    · rw [update_self]
      exact Nat.lt_succ_self calls

theorem Good.passOn_owner (ho : x.passOn.owner = some t) : waits t ∧ x.owner ≠ some t :=
  (h.ring t).mp (List.mem_of_head? ho)

theorem Good.passOn (owner : x.owner = some t) (fresh : ¬ waits t) :
    x.passOn.Good waits call calls := by
  have hn := h.nodup
  have hring := h.ring
  have horder := h.order
  have hcalled := h.called
  unfold Mutex.passOn
  cases hw : x.waitingThreads with
  | nil =>
    refine ⟨fun _ => rfl, ?_, List.Pairwise.nil, nofun⟩
    intro u
    -- With an empty ring only the owner could wait, and it does not.
    have hu : ¬ waits u := by
      intro hu
      by_cases hut : x.owner = some u
      · rw [owner] at hut
        cases hut
        exact fresh hu
      · have := (hring u).mpr ⟨hu, hut⟩
        rw [hw] at this
        exact absurd this List.not_mem_nil
    simp [hu]
  | cons w ring =>
    rw [hw] at hn hring horder hcalled
    refine ⟨nofun, ?_, (List.pairwise_cons.mp horder).2, fun u hu => hcalled u (.tail _ hu)⟩
    intro u
    have hu := hring u
    rw [List.mem_cons, owner] at hu
    constructor
    · intro hmem
      refine ⟨(hu.mp (.inr hmem)).1, ?_⟩
      intro heq
      cases heq
      exact (List.nodup_cons.mp hn).1 hmem
    · rintro ⟨hwaits, hne⟩
      refine (hu.mpr ⟨hwaits, ?_⟩).resolve_left fun heq => hne (by rw [heq]; rfl)
      intro heq
      cases heq
      exact fresh hwaits

theorem Good.leave (t : ThreadId) : (x.leave t).Good (fun u => u ≠ t ∧ waits u) call calls := by
  unfold Mutex.leave
  split
  case isTrue owner =>
    -- The waiting calls of the owner do not count.
    have h' : x.Good (fun u => u ≠ t ∧ waits u) call calls := by
      refine h.congr (Nat.le_refl _) ?_ fun _ _ => rfl
      intro u hu
      rw [owner] at hu
      exact and_iff_right fun heq => hu (by rw [heq])
    exact h'.passOn owner fun hw => hw.1 rfl
  case isFalse owner =>
    have hsub : (x.waitingThreads.erase t).Sublist x.waitingThreads := List.erase_sublist
    refine ⟨?_, ?_, h.order.sublist hsub, fun u hu => h.called u (hsub.subset hu)⟩
    · intro hfree
      simp [h.free hfree]
    · intro u
      simp only [h.nodup.mem_erase_iff, h.ring, and_assoc]

end

end Mutex

/-! ## The mutexes of all threads -/

namespace LockView

def acquire (v : LockView) (t : ThreadId) (m : MutexId) : LockView :=
  { v with
    held := update v.held t (m :: v.held t)
    table := update v.table m { v.table m with owner := some t } }

def enqueue (v : LockView) (t : ThreadId) (m : MutexId) : LockView :=
  { held := update v.held t (m :: v.held t)
    waits := update v.waits t (m :: v.waits t)
    table := update v.table m
      { v.table m with waitingThreads := (v.table m).waitingThreads ++ [t] }
    calls := v.calls + 1
    call := update v.call t (update (v.call t) m v.calls) }

/-- Waiting calls of `t` end, `left` are the others. -/
def complete (v : LockView) (t : ThreadId) (left : List MutexId) : LockView :=
  { v with waits := update v.waits t left }

def withTable (v : LockView) (table : MutexId → Mutex) : LockView := { v with table }

def release (v : LockView) (t : ThreadId) (m : MutexId) : LockView :=
  { v with
    held := update v.held t ((v.held t).filter (· ≠ m))
    table := update v.table m (v.table m).passOn }

def leave (v : LockView) (t : ThreadId) : LockView :=
  { v with
    held := update v.held t []
    waits := update v.waits t []
    table := fun m => if m ∈ v.held t then (v.table m).leave t else v.table m }

/-- The steps thread `t` takes on the mutex data. -/
inductive Step (t : ThreadId) (v : LockView) : LockView → Prop
  | same : Step t v v
  | acquire (m) (free : (v.table m).owner = none) : Step t v (v.acquire t m)
  | enqueue (m o) (owned : (v.table m).owner = some o) (other : o ≠ t)
      (fresh : m ∉ v.waits t) : Step t v (v.enqueue t m)
  | complete (done left) (waits : v.waits t = done ++ left)
      (owner : ∀ m ∈ done, (v.table m).owner = some t) : Step t v (v.complete t left)
  | release (m) (owner : (v.table m).owner = some t) (fresh : m ∉ v.waits t) :
      Step t v (v.release t m)
  | leave : Step t v (v.leave t)

structure Inv (v : LockView) : Prop where
  good : ∀ m, (v.table m).Good (fun t => m ∈ v.waits t) (fun t => v.call t m) v.calls
  held : ∀ t m, m ∈ v.held t ↔ (v.table m).owner = some t ∨ m ∈ v.waits t
  heldOnce : ∀ t, (v.held t).Nodup
  waitsOnce : ∀ t, (v.waits t).Nodup

variable {v v' : LockView} {t : ThreadId} {m : MutexId}

theorem nodup_update {f : ThreadId → List MutexId} {l} (h : ∀ t, (f t).Nodup) (hl : l.Nodup) (u) :
    (update f t l u).Nodup := by
  by_cases hut : u = t
  · subst hut
    rwa [update_self]
  · rw [update_of_ne hut]
    exact h u

theorem Inv.acquire (h : Inv v) (free : (v.table m).owner = none) : Inv (v.acquire t m) := by
  have hnew : m ∉ v.held t := by
    rw [h.held, free]
    simp [(h.good m).not_waits free t]
  refine ⟨?_, ?_, nodup_update h.heldOnce (List.nodup_cons.mpr ⟨hnew, h.heldOnce t⟩),
    h.waitsOnce⟩
  · intro n
    by_cases hnm : n = m
    · subst hnm
      simpa [LockView.acquire] using (h.good n).acquire free t
    · simpa [LockView.acquire, hnm] using h.good n
  · intro u n
    have hold := h.held u n
    simp only [LockView.acquire, update_apply]
    grind

theorem Inv.enqueue (h : Inv v) {o} (owned : (v.table m).owner = some o) (other : o ≠ t)
    (fresh : m ∉ v.waits t) : Inv (v.enqueue t m) := by
  have hnew : m ∉ v.held t := by
    rw [h.held, owned]
    simp [fresh, other]
  refine ⟨?_, ?_, nodup_update h.heldOnce (List.nodup_cons.mpr ⟨hnew, h.heldOnce t⟩),
    nodup_update h.waitsOnce (List.nodup_cons.mpr ⟨fresh, h.waitsOnce t⟩)⟩
  · intro n
    have hgood := h.good n
    by_cases hnm : n = m
    · subst hnm
      have hnew := hgood.enqueue owned other fresh
      simp only [LockView.enqueue, update_self]
      refine hnew.congr (Nat.le_refl _) ?_ ?_
      · intro u _
        by_cases hut : u = t <;> simp [hut]
      · intro u _
        by_cases hut : u = t <;> simp [hut]
    · simp only [LockView.enqueue, update_of_ne hnm]
      refine hgood.congr (Nat.le_succ _) ?_ ?_
      · intro u _
        by_cases hut : u = t <;> simp [hut, hnm]
      · intro u _
        by_cases hut : u = t <;> simp [hut, hnm]
  · intro u n
    have hold := h.held u n
    simp only [LockView.enqueue, update_apply]
    grind

theorem Inv.complete (h : Inv v) {done left} (waits : v.waits t = done ++ left)
    (owner : ∀ m ∈ done, (v.table m).owner = some t) : Inv (v.complete t left) := by
  have hm : left.Nodup := by
    have hall := h.waitsOnce t
    rw [waits] at hall
    exact hall.of_append_right
  -- A call that ended has left its mutex with the thread.
  have hwaits : ∀ u n, (v.table n).owner ≠ some u →
      (n ∈ (v.complete t left).waits u ↔ n ∈ v.waits u) := by
    intro u n hne
    by_cases hut : u = t
    · subst hut
      simp only [LockView.complete, update_self]
      rw [waits, List.mem_append]
      exact ⟨.inr, fun hm => hm.resolve_left fun hd => hne (owner n hd)⟩
    · simp only [LockView.complete, update_of_ne hut]
  refine ⟨?_, ?_, h.heldOnce, nodup_update h.waitsOnce hm⟩
  · intro n
    exact (h.good n).congr (Nat.le_refl _) (fun u hne => hwaits u n hne) fun _ _ => rfl
  · intro u n
    refine (h.held u n).trans ?_
    by_cases hne : (v.table n).owner = some u
    · exact iff_of_true (.inl hne) (.inl hne)
    · exact or_congr Iff.rfl (hwaits u n hne).symm

theorem Inv.release (h : Inv v) (owner : (v.table m).owner = some t) (fresh : m ∉ v.waits t) :
    Inv (v.release t m) := by
  refine ⟨?_, ?_, nodup_update h.heldOnce ((h.heldOnce t).filter _), h.waitsOnce⟩
  · intro n
    by_cases hnm : n = m
    · subst hnm
      simpa [LockView.release] using (h.good n).passOn owner fresh
    · simpa [LockView.release, hnm] using h.good n
  · intro u n
    have hold := h.held u n
    have hnew : (v.table m).passOn.owner = some u → m ∈ v.waits u := fun ho =>
      ((h.good m).passOn_owner ho).1
    simp only [LockView.release, update_apply]
    grind

theorem Inv.leave (h : Inv v) (t) : Inv (v.leave t) := by
  have hwaits : ∀ u n, n ∈ (v.leave t).waits u ↔ u ≠ t ∧ n ∈ v.waits u := by
    intro u n
    by_cases hut : u = t <;> simp [LockView.leave, hut]
  refine ⟨?_, ?_, nodup_update h.heldOnce List.nodup_nil, nodup_update h.waitsOnce List.nodup_nil⟩
  · intro n
    simp only [hwaits]
    by_cases hn : n ∈ v.held t
    · simpa [LockView.leave, hn] using (h.good n).leave t
    · have hnot : n ∉ v.waits t := fun hw => hn ((h.held t n).mpr (.inr hw))
      simp only [LockView.leave, hn, if_false]
      refine (h.good n).congr (Nat.le_refl _) ?_ fun _ _ => rfl
      intro u _
      refine and_iff_right_of_imp ?_
      intro hw heq
      exact hnot (heq ▸ hw)
  · intro u n
    rw [hwaits]
    have hold := h.held u n
    have hself := h.held t n
    have hnew : (v.table n).passOn.owner = some u → n ∈ v.waits u ∧ (v.table n).owner ≠ some u :=
      (h.good n).passOn_owner
    simp only [LockView.leave, update_apply, Mutex.leave]
    grind

theorem Step.congr {w} (hs : Step t v w) (heq : v' = w) : Step t v v' := heq ▸ hs

theorem Step.inv (hs : Step t v v') (h : Inv v) : Inv v' := by
  cases hs with
  | same => exact h
  | acquire m free => exact h.acquire free
  | enqueue m o owned other fresh => exact h.enqueue owned other fresh
  | complete done left waits owner => exact h.complete waits owner
  | release m owner fresh => exact h.release owner fresh
  | leave => exact h.leave t

theorem Step.passes_on (hs : Step t v v') {o} (ho : (v.table m).owner = some o)
    (hn : (v'.table m).owner ≠ some o) : o = t ∧ v'.table m = (v.table m).passOn := by
  cases hs with
  | same => exact absurd ho hn
  | acquire n free =>
    by_cases hnm : m = n
    · subst hnm
      rw [free] at ho
      cases ho
    · simp [LockView.acquire, hnm, ho] at hn
  | enqueue n o owned other fresh =>
    by_cases hnm : m = n
    · subst hnm
      simp [LockView.enqueue, ho] at hn
    · simp [LockView.enqueue, hnm, ho] at hn
  | complete done left waits owner => exact absurd ho hn
  | release n owner fresh =>
    by_cases hnm : m = n
    · subst hnm
      rw [owner] at ho
      cases ho
      simp [LockView.release]
    · simp [LockView.release, hnm, ho] at hn
  | leave =>
    by_cases hheld : m ∈ v.held t
    · by_cases hot : o = t
      · subst hot
        simp [LockView.leave, hheld, Mutex.leave, ho]
      · simp [LockView.leave, hheld, Mutex.leave, ho, hot] at hn
    · simp [LockView.leave, hheld, ho] at hn

theorem Step.others (hs : Step t v v') {u} (hut : u ≠ t) :
    v'.held u = v.held u ∧ v'.waits u = v.waits u := by
  cases hs <;>
    simp [LockView.acquire, LockView.enqueue, LockView.complete, LockView.release, LockView.leave,
      hut]

end LockView

/-! ## The mutex data of the kernel -/

namespace Kernel

def lockView (s : Kernel) : LockView where
  held := fun t => (s.threads t).mutexes
  waits := fun t => lockWaits (s.threads t).frames
  table := s.mutexes
  calls := s.lockCalls
  call := s.lockCall

variable {s s' : Kernel} {t : ThreadId} {m : MutexId} {a : Action}

theorem lockView_modify (s : Kernel) (t f) :
    (s.modify t f).lockView = { s.lockView with
      held := update s.lockView.held t (f (s.threads t)).mutexes
      waits := update s.lockView.waits t (lockWaits (f (s.threads t)).frames) } := by
  have hheld : (s.modify t f).lockView.held =
      update s.lockView.held t (f (s.threads t)).mutexes := by
    funext u
    by_cases hut : u = t
    · subst hut
      simp [lockView]
    · simp [lockView, hut, modify_of_ne]
  have hwaits : (s.modify t f).lockView.waits =
      update s.lockView.waits t (lockWaits (f (s.threads t)).frames) := by
    funext u
    by_cases hut : u = t
    · subst hut
      simp [lockView]
    · simp [lockView, hut, modify_of_ne]
  rw [← hheld, ← hwaits]
  rfl

theorem lockView_modify_eq {f : Thread → Thread}
    (hm : (f (s.threads t)).mutexes = (s.threads t).mutexes)
    (hf : lockWaits (f (s.threads t)).frames = lockWaits (s.threads t).frames) :
    (s.modify t f).lockView = s.lockView := by
  rw [lockView_modify, hm, hf]
  simp [lockView]

@[simp] theorem lockView_setControl (s : Kernel) (c) :
    lockView { s with control := c } = s.lockView := rfl

@[simp] theorem lockView_setBlockEvents (s : Kernel) (t b) :
    (s.setBlockEvents t b).lockView = s.lockView := lockView_modify_eq rfl rfl

@[simp] theorem lockView_setState (s : Kernel) (t e) :
    (s.setState t e).lockView = s.lockView := lockView_modify_eq rfl rfl

@[simp] theorem lockView_setContinuation (s : Kernel) (t k) :
    (s.setContinuation t k).lockView = s.lockView := lockView_modify_eq rfl rfl

@[simp] theorem lockView_saveContinuation (s : Kernel) (t) :
    (s.saveContinuation t).lockView = s.lockView := lockView_setContinuation s t _

/-! Signals and switches leave the mutexes alone. -/

@[simp] theorem lockView_signalThreadEvent (s : Kernel) (t event) :
    (s.signalThreadEvent t event).lockView = s.lockView := by
  have hpending : (s.modify t fun x => { x with
      pendingEvents := addPendingEvent event x.pendingEvents }).lockView = s.lockView :=
    lockView_modify_eq rfl rfl
  unfold signalThreadEvent
  dsimp only
  split
  · exact (lockView_setState _ t .running).trans hpending
  · exact hpending

@[simp] theorem lockView_deliver : ∀ (io : List (ThreadId × Event)) (s : Kernel),
    (s.deliver io).lockView = s.lockView
  | [], _ => rfl
  | (t, event) :: io, s => by
    unfold deliver
    split
    · rw [lockView_deliver io, lockView_signalThreadEvent]
    · exact lockView_deliver io s

@[simp] theorem lockView_resumeCurrentThread (s : Kernel) (t) :
    (s.resumeCurrentThread t).lockView = s.lockView := by
  unfold resumeCurrentThread
  split <;> rfl

@[simp] theorem lockView_runThread (s : Kernel) (t) : (s.runThread t).lockView = s.lockView := by
  unfold runThread
  split
  · split
    · exact lockView_setContinuation s t none
    · simp
    · rfl
  · rfl

@[simp] theorem lockView_runFirstThread (s : Kernel) : s.runFirstThread.lockView = s.lockView := by
  unfold runFirstThread
  split
  · exact lockView_runThread s _
  · rfl

@[simp] theorem lockView_threadNotRunning (s : Kernel) (t e) :
    (s.threadNotRunning t e).lockView = s.lockView := by
  unfold threadNotRunning
  rw [lockView_runFirstThread]
  exact lockView_setState s t e

@[simp] theorem lockView_yieldThread (s : Kernel) (t) :
    (s.yieldThread t).lockView = s.lockView := by
  unfold yieldThread
  split
  · exact lockView_resumeCurrentThread s t
  · rw [lockView_runThread]
    exact lockView_saveContinuation s t

@[simp] theorem lockView_suspendCurrentThread (s : Kernel) (t io) :
    (s.suspendCurrentThread t io).lockView = s.lockView := by
  unfold suspendCurrentThread
  simp

@[simp] theorem lockView_timerInterrupt (s : Kernel) (io) :
    (s.timerInterrupt io).lockView = s.lockView := by
  unfold timerInterrupt
  dsimp only
  split
  · exact lockView_deliver io s
  · split
    · simp
    · split <;> simp

@[simp] theorem lockView_waitForIo (s : Kernel) (io) : (s.waitForIo io).lockView = s.lockView := by
  simp [waitForIo]

@[simp] theorem lockView_handleThreadEvents (s : Kernel) (t after any) :
    (s.handleThreadEvents t after any).lockView = s.lockView := by
  unfold handleThreadEvents
  split
  · exact (lockView_setControl _ _).trans (lockView_modify_eq rfl rfl)
  · exact (lockView_setControl _ _).trans (lockView_modify_eq rfl rfl)
  · split
    · simp
    · split <;> simp
    · split <;> simp
    · simp

@[simp] theorem lockView_setThreadEventBlock (s : Kernel) (t block) :
    (s.setThreadEventBlock t block).lockView = s.lockView := by
  unfold setThreadEventBlock
  split <;> simp

@[simp] theorem lockView_signalSelf (s : Kernel) (t event) :
    (s.signalSelf t event).lockView = s.lockView := by
  unfold signalSelf
  dsimp only
  split
  · exact (lockView_setControl _ _).trans (lockView_modify_eq rfl rfl)
  · exact lockView_modify_eq rfl rfl

@[simp] theorem lockView_releaseLoop (t : ThreadId) : ∀ (l : List (ThreadId × Event)) (s : Kernel),
    (s.releaseLoop t l).lockView = s.lockView
  | [], _ => rfl
  | (u, event) :: l, s => by
    unfold releaseLoop
    rw [lockView_releaseLoop t l, lockView_signalThreadEvent]
    exact lockView_modify_eq rfl rfl

@[simp] theorem lockView_releaseJoinedThreads (s : Kernel) (t v) :
    (s.releaseJoinedThreads t v).lockView = s.lockView := by
  unfold releaseJoinedThreads
  dsimp only
  rw [lockView_releaseLoop]
  exact lockView_modify_eq rfl rfl

@[simp] theorem lockView_disassociateJoined (t : ThreadId) : ∀ (l : List ThreadId) (s : Kernel),
    (s.disassociateJoined t l).lockView = s.lockView
  | [], _ => rfl
  | u :: l, s => by
    unfold disassociateJoined
    rw [lockView_disassociateJoined t l]
    exact lockView_modify_eq rfl rfl

theorem lockView_restartThread (s : Kernel) (t discardEvents event) :
    (s.restartThread t discardEvents event).lockView = s.lockView := by
  have hdiscard : (if discardEvents then s.modify t fun x => { x with pendingEvents := [] }
      else s).lockView = s.lockView := by
    split
    · exact lockView_modify_eq rfl rfl
    · rfl
  unfold restartThread
  split
  · refine (lockView_setState _ t .running).trans ?_
    split
    · exact hdiscard
    · rw [lockView_signalThreadEvent]
      exact hdiscard
  · rfl

/-! The mutex operations. -/

theorem lockView_setMutex (s : Kernel) (m x) :
    (s.setMutex m x).lockView = s.lockView.withTable (update s.mutexes m x) := rfl

theorem lockView_lockCall (s : Kernel) (c : Control) (n : Nat) (f : ThreadId → MutexId → Nat) :
    lockView { s with control := c, lockCalls := n, lockCall := f } =
      { s.lockView with calls := n, call := f } := rfl

theorem lockView_handOff (s : Kernel) (m) :
    (s.handOff m).lockView =
      s.lockView.withTable (update s.mutexes m (s.mutexes m).passOn) := by
  unfold handOff
  split
  case h_1 hring =>
    rw [Mutex.passOn, hring]
    rfl
  case h_2 t ring hring =>
    rw [lockView_signalThreadEvent, Mutex.passOn, hring]
    rfl

theorem lockView_disassociateLoop (t : ThreadId) : ∀ (ms : List MutexId) (s : Kernel), ms.Nodup →
    (s.disassociateLoop t ms).lockView = s.lockView.withTable fun m =>
      if m ∈ ms then (s.mutexes m).leave t else s.mutexes m
  | [], s, _ => by simp [disassociateLoop, LockView.withTable, lockView]
  | m :: ms, s, hn => by
    obtain ⟨hm, hn⟩ := List.nodup_cons.mp hn
    unfold disassociateLoop
    dsimp only
    generalize hs1 : (if (s.mutexes m).owner = some t then s.handOff m
      else s.setMutex m
        { s.mutexes m with waitingThreads := (s.mutexes m).waitingThreads.erase t }) = s1
    have hone : s1.lockView =
        s.lockView.withTable (update s.mutexes m ((s.mutexes m).leave t)) := by
      subst hs1
      unfold Mutex.leave
      split
      · exact lockView_handOff s m
      · exact lockView_setMutex s m _
    have htable : s1.mutexes = update s.mutexes m ((s.mutexes m).leave t) :=
      congrArg LockView.table hone
    rw [lockView_disassociateLoop t ms s1 hn, hone, htable]
    refine congrArg s.lockView.withTable ?_
    funext n
    by_cases hnm : n = m
    · subst hnm
      simp [hm]
    · simp [hnm]

theorem lockView_finishExit (s : Kernel) (t) (hn : (s.threads t).mutexes.Nodup) :
    (s.finishExit t).lockView = s.lockView.leave t := by
  generalize hs1 : s.disassociateJoined t (s.threads t).joinedTo = s1
  have h1 : s1.lockView = s.lockView := hs1 ▸ lockView_disassociateJoined t _ s
  generalize hs2 : (s1.modify t fun x => { x with joinedTo := [], frames := [] }) = s2
  have hm2 : (s2.threads t).mutexes = (s.threads t).mutexes := by
    rw [← hs2, modify_self]
    exact congrFun (congrArg LockView.held h1) t
  have h2 : s2.lockView = { s.lockView with waits := update s.lockView.waits t [] } := by
    rw [← hs2, lockView_modify, h1]
    have : (s1.threads t).mutexes = s.lockView.held t := congrFun (congrArg LockView.held h1) t
    rw [this, update_eq_self]
    rfl
  have h3 : (s2.disassociateThreadMutexes t).lockView = s.lockView.leave t := by
    unfold disassociateThreadMutexes
    have hloop := lockView_disassociateLoop t (s2.threads t).mutexes s2 (hm2 ▸ hn)
    have hwaits : (s2.disassociateLoop t (s2.threads t).mutexes).lockView.waits t = [] := by
      rw [hloop, h2]
      simp [LockView.withTable]
    change lockWaits _ = _ at hwaits
    have htable : s2.mutexes = s.mutexes := congrArg LockView.table h2
    rw [lockView_modify, hwaits, hloop, h2, hm2, htable]
    simp only [LockView.withTable, LockView.leave, update_idem]
    rfl
  unfold finishExit
  dsimp only
  rw [hs1, hs2, lockView_threadNotRunning]
  split
  · rw [lockView_releaseJoinedThreads, h3]
  · exact h3

/-! ## Steps of the kernel -/

/-- A call of thread `t` does not disturb its waiting calls of
`lock-thread-mutex`: it does not lock the same mutex, unlock it, or leave the
waiting call without it. -/
def UndisturbedBy (s : Kernel) (t : ThreadId) : Action → Prop
  | .lock m => t ∉ (s.mutexes m).waitingThreads
  | .unlock m => (s.mutexes m).owner = some t → .lockWait m ∉ (s.threads t).frames
  | .escape depth _ =>
    ∀ m ∈ lockWaits ((s.threads t).frames.take depth), (s.mutexes m).owner = some t
  | _ => True

instance (s : Kernel) (t : ThreadId) (a : Action) : Decidable (s.UndisturbedBy t a) := by
  cases a <;> unfold UndisturbedBy <;> infer_instance

def Undisturbed (s : Kernel) (a : Action) : Prop :=
  s.control = .user → ∀ t ∈ s.queue.first, s.UndisturbedBy t a

instance (s : Kernel) (a : Action) : Decidable (s.Undisturbed a) := by
  unfold Undisturbed
  infer_instance

theorem lockView_lockThreadMutex_free (free : (s.mutexes m).owner = none) :
    (s.lockThreadMutex t m).lockView = s.lockView.acquire t m := by
  simp only [lockThreadMutex, free, reduceCtorEq, if_false]
  rw [lockView_setMutex, lockView_modify]
  simp [LockView.acquire, LockView.withTable, lockView]

theorem lockView_lockThreadMutex_owned {o} (owned : (s.mutexes m).owner = some o) (other : o ≠ t) :
    (s.lockThreadMutex t m).lockView = s.lockView.enqueue t m := by
  simp only [lockThreadMutex, owned, Option.some.injEq, other, if_false]
  rw [lockView_lockCall, lockView_modify, lockView_setMutex, lockView_modify]
  simp [LockView.enqueue, LockView.withTable, lockView, setMutex, modify, lockWaits, owned]

theorem lockThreadMutex_lockStep (hi : s.lockView.Inv) (hu : t ∉ (s.mutexes m).waitingThreads) :
    LockView.Step t s.lockView (s.lockThreadMutex t m).lockView := by
  by_cases howner : (s.mutexes m).owner = some t
  · simp only [lockThreadMutex, if_pos howner]
    exact .same
  · cases ho : (s.mutexes m).owner with
    | none =>
      rw [lockView_lockThreadMutex_free ho]
      exact .acquire m ho
    | some o =>
      have hother : o ≠ t := fun heq => howner (by rw [ho, heq])
      have hfresh : m ∉ s.lockView.waits t := fun hw =>
        hu (((hi.good m).ring t).mpr ⟨hw, howner⟩)
      rw [lockView_lockThreadMutex_owned ho hother]
      exact .enqueue m o ho hother hfresh

theorem lockView_unlockThreadMutex (owner : (s.mutexes m).owner = some t) :
    (s.unlockThreadMutex t m).lockView = s.lockView.release t m := by
  unfold unlockThreadMutex
  rw [if_pos owner, lockView_handOff, lockView_modify]
  simp [LockView.release, LockView.withTable, lockView]

theorem lockThreadMutex_mutexes (h : (s.mutexes m).owner ≠ some t) :
    (s.lockThreadMutex t m).mutexes = update s.mutexes m
      (if (s.mutexes m).owner = none then { s.mutexes m with owner := some t }
      else { s.mutexes m with waitingThreads := (s.mutexes m).waitingThreads ++ [t] }) := by
  cases ho : (s.mutexes m).owner with
  | none => exact congrArg LockView.table (lockView_lockThreadMutex_free ho)
  | some o =>
    have hother : o ≠ t := fun heq => h (by rw [ho, heq])
    exact congrArg LockView.table (lockView_lockThreadMutex_owned ho hother)

theorem unlockThreadMutex_mutexes (owner : (s.mutexes m).owner = some t) :
    (s.unlockThreadMutex t m).mutexes = update s.mutexes m (s.mutexes m).passOn :=
  congrArg LockView.table (lockView_unlockThreadMutex owner)

theorem lockView_setFrames (s : Kernel) (t frames) :
    (s.setFrames t frames).lockView = s.lockView.complete t (lockWaits frames) := by
  rw [setFrames, lockView_modify]
  simp [LockView.complete, lockView]

theorem unlockThreadMutex_lockStep
    (hu : (s.mutexes m).owner = some t → .lockWait m ∉ (s.threads t).frames) :
    LockView.Step t s.lockView (s.unlockThreadMutex t m).lockView := by
  by_cases owner : (s.mutexes m).owner = some t
  · have hfresh : m ∉ s.lockView.waits t := fun hw => hu owner (mem_lockWaits.mp hw)
    rw [lockView_unlockThreadMutex owner]
    exact .release m owner hfresh
  · unfold unlockThreadMutex
    rw [if_neg owner]
    exact .same

theorem tryLockThreadMutex_lockStep (m) :
    LockView.Step t s.lockView (s.tryLockThreadMutex t m).lockView := by
  unfold tryLockThreadMutex
  split
  case isTrue free =>
    refine LockView.Step.congr (.acquire m free) ?_
    rw [lockView_modify, lockView_setMutex]
    simp [LockView.acquire, LockView.withTable, lockView, setMutex]
  case isFalse => exact .same

theorem setFrames_lockStep (done frames)
    (hf : lockWaits (s.threads t).frames = lockWaits done ++ lockWaits frames)
    (owner : ∀ m ∈ lockWaits done, (s.mutexes m).owner = some t) :
    LockView.Step t s.lockView (s.setFrames t frames).lockView := by
  rw [lockView_setFrames]
  exact .complete (lockWaits done) (lockWaits frames) hf owner

theorem returnToFrame_lockStep (s : Kernel) (t io) :
    LockView.Step t s.lockView (s.returnToFrame t io).lockView := by
  unfold returnToFrame
  split
  case h_1 m frames hf =>
    split
    case isTrue owner =>
      refine LockView.Step.congr (setFrames_lockStep [.lockWait m] frames
        (by rw [hf]; rfl) ?_) (lockView_setControl _ _)
      intro n hn
      cases hn with
      | head => exact owner
      | tail _ hn => cases hn
    case isFalse =>
      rw [lockView_suspendCurrentThread]
      exact .same
  case h_2 => exact .same

theorem createThread_lockView (block)
    (hf : s.lockView.held s.threadCount = [] ∧ s.lockView.waits s.threadCount = []) :
    (s.createThread block).lockView = s.lockView := by
  have hheld : (s.createThread block).lockView.held = s.lockView.held := by
    funext u
    by_cases hu : u = s.threadCount
    · subst hu
      rw [hf.1]
      simp [lockView, createThread, makeThread]
    · simp [lockView, createThread, hu]
  have hwaits : (s.createThread block).lockView.waits = s.lockView.waits := by
    funext u
    by_cases hu : u = s.threadCount
    · subst hu
      rw [hf.2]
      simp [lockView, createThread, makeThread, lockWaits]
    · simp [lockView, createThread, hu]
  calc (s.createThread block).lockView
      = { s.lockView with
          held := (s.createThread block).lockView.held
          waits := (s.createThread block).lockView.waits } := rfl
    _ = s.lockView := by rw [hheld, hwaits]

/-- The calls that use a mutex by its name, and the exit from waiting calls. -/
def NamesMutex : Action → Prop
  | .lock _ | .unlock _ | .escape _ _ => True
  | _ => False

theorem userStep_lockStep_of_other (hn : (s.threads t).mutexes.Nodup)
    (hf : s.lockView.held s.threadCount = [] ∧ s.lockView.waits s.threadCount = [])
    (ha : ¬ NamesMutex a) (hs : s.userStep t a = some s') :
    LockView.Step t s.lockView s'.lockView := by
  -- Most calls leave the mutex data as it is.
  have same : s'.lockView = s.lockView → LockView.Step t s.lockView s'.lockView :=
    LockView.Step.same.congr
  cases a with simp only [Kernel.userStep] at hs
  | createThread block => cases hs; exact same (createThread_lockView block hf)
  | suspend io => cases hs; exact same (by simp)
  | stop => cases hs; exact same (by simp)
  | restart u discardEvents event =>
    split at hs
    · cases hs
      refine same ?_
      exact lockView_restartThread s u discardEvents event
    · cases hs
  | yield io => cases hs; exact same (by simp)
  | exit => cases hs; exact same ((lockView_setControl _ _).trans (lockView_modify_eq rfl rfl))
  | signal u event =>
    split at hs
    · cases hs
      refine same ?_
      unfold Kernel.signal
      split
      · simp
      · split <;> simp
    · cases hs
  | join u event =>
    split at hs
    · cases hs
      refine same ?_
      unfold Kernel.joinThread
      split
      · rfl
      · split
        · exact (lockView_modify_eq rfl rfl).trans (lockView_modify_eq rfl rfl)
        · rfl
        · simp
    · cases hs
  | detach u =>
    split at hs
    · cases hs
      refine same ?_
      unfold Kernel.detachThread
      split <;> simp
    · cases hs
  | setEventBlock block => cases hs; exact same (by simp)
  | allowDelivery io => cases hs; exact same (by simp)
  | allowPreempt allow => cases hs; exact same (by simp)
  | lock m => exact absurd trivial ha
  | unlock m => exact absurd trivial ha
  | tryLock m => cases hs; exact tryLockThreadMutex_lockStep m
  | «return» =>
    split at hs
    case h_1 block after frames hframes =>
      cases hs
      refine LockView.Step.congr (setFrames_lockStep [] frames ?_ fun _ hm =>
        absurd hm List.not_mem_nil) (by simp)
      rw [hframes]
      rfl
    case h_2 =>
      cases hs
      rw [lockView_finishExit s t hn]
      exact .leave
    case h_3 => cases hs; exact same ((lockView_setControl _ _).trans (lockView_modify_eq rfl rfl))
    case h_4 => cases hs
  | escape depth block => exact absurd trivial ha
  | timer io => cases hs; exact same (by simp)
  | kernel io => cases hs

theorem userStep_lockStep (hi : s.lockView.Inv)
    (hf : s.lockView.held s.threadCount = [] ∧ s.lockView.waits s.threadCount = [])
    (hc : s.control = .user) (hq : s.queue.first = some t) (hu : Undisturbed s a)
    (hs : s.userStep t a = some s') : LockView.Step t s.lockView s'.lockView := by
  have hu := hu hc t hq
  cases a with
  | lock m => cases hs; exact lockThreadMutex_lockStep hi hu
  | unlock m => cases hs; exact unlockThreadMutex_lockStep hu
  | escape depth block =>
    simp only [Kernel.userStep] at hs
    split at hs
    · cases hs
    · cases hs
      rw [lockView_setThreadEventBlock]
      exact setFrames_lockStep _ _ (lockWaits_take_drop _ depth) hu
  | _ => exact userStep_lockStep_of_other (hi.heldOnce t) hf id hs

theorem idleStep_lockView (hs : s.idleStep a = some s') : s'.lockView = s.lockView := by
  cases a <;> cases hs
  · exact lockView_timerInterrupt s _
  · exact lockView_waitForIo s _

/-- The invariant: the scheduler's, that of the mutex data, and that a thread
not yet created has none. -/
structure LockOk (s : Kernel) : Prop where
  ok : s.Ok
  inv : s.lockView.Inv
  fresh : ∀ t, s.threadCount ≤ t → s.lockView.held t = [] ∧ s.lockView.waits t = []

theorem Current.lt_threadCount {q} (h : Current s t q) : t < s.threadCount := by
  refine Nat.lt_of_not_le fun hle => ?_
  exact h.not_dead (h.sched.absent t hle)

theorem step_lockStep (h : s.LockOk) (hu : Undisturbed s a) (hs : s.step a = some s') :
    s'.lockView = s.lockView ∨ ∃ t, t < s.threadCount ∧ s.queue.first = some t ∧
      LockView.Step t s.lockView s'.lockView := by
  obtain ⟨-, -, hs⟩ | ⟨t, q, hcur, hcase⟩ := step_cases h.ok hs
  · exact .inl (idleStep_lockView hs)
  · obtain ⟨hc, hs⟩ | ⟨after, any, io, -, -, rfl⟩ | ⟨io, -, -, rfl⟩ := hcase
    · exact .inr ⟨t, hcur.lt_threadCount, hcur.first,
        userStep_lockStep h.inv (h.fresh _ (Nat.le_refl _)) hc hcur.first hu hs⟩
    · exact .inl (lockView_handleThreadEvents s t after any)
    · exact .inr ⟨t, hcur.lt_threadCount, hcur.first, returnToFrame_lockStep s t io⟩

theorem step_lockOk (h : s.LockOk) (hu : Undisturbed s a)
    (hs : s.step a = some s') : s'.LockOk := by
  obtain ⟨hok, hkeeps⟩ := step_ok h.ok hs
  obtain heq | ⟨t, ht, -, hstep⟩ := step_lockStep h hu hs
  · refine ⟨hok, heq ▸ h.inv, ?_⟩
    intro u hu
    rw [heq]
    exact h.fresh u (Nat.le_trans hkeeps.count hu)
  · refine ⟨hok, hstep.inv h.inv, ?_⟩
    intro u hu
    have hle := Nat.le_trans hkeeps.count hu
    have hut : u ≠ t := Nat.ne_of_gt (Nat.lt_of_lt_of_le ht hle)
    rw [(hstep.others hut).1, (hstep.others hut).2]
    exact h.fresh u hle

theorem initial_held (t) : initial.lockView.held t = [] := by
  by_cases ht : t = 0 <;> simp [lockView, initial, makeThread, ht]

theorem initial_lockOk : initial.LockOk := by
  have hwaits : ∀ t, initial.lockView.waits t = [] := by
    intro t
    by_cases ht : t = 0 <;> simp [lockView, initial, makeThread, lockWaits, ht]
  refine ⟨initial_ok, ⟨?_, ?_, ?_, ?_⟩, fun t _ => ⟨initial_held t, hwaits t⟩⟩
  · intro m
    refine ⟨fun _ => rfl, ?_, List.Pairwise.nil, fun _ hw => absurd hw List.not_mem_nil⟩
    intro t
    rw [hwaits]
    exact iff_of_false List.not_mem_nil fun hw => absurd hw.1 List.not_mem_nil
  · intro t m
    rw [initial_held, hwaits]
    exact iff_of_false List.not_mem_nil fun hw =>
      hw.elim (fun ho => absurd ho.symm (Option.some_ne_none t)) fun hw =>
        absurd hw List.not_mem_nil
  · intro t
    rw [initial_held]
    exact List.nodup_nil
  · intro t
    rw [hwaits]
    exact List.nodup_nil

/-! ## Mutual exclusion -/

/-- What the mutexes promise about a state. Thread `t` waits for `m` when a call
of `lock-thread-mutex` on `m` is on its stack. -/
structure MutexOk (s : Kernel) : Prop where
  free : ∀ m, (s.mutexes m).owner = none → (s.mutexes m).waitingThreads = []
  /-- The ring holds the threads that wait and do not own the mutex yet, -/
  ring : ∀ t m, t ∈ (s.mutexes m).waitingThreads ↔
    .lockWait m ∈ (s.threads t).frames ∧ (s.mutexes m).owner ≠ some t
  /-- each once, -/
  once : ∀ m, (s.mutexes m).waitingThreads.Nodup
  /-- in the order of their lock calls. -/
  order : ∀ m, (s.mutexes m).waitingThreads.Pairwise fun t u => s.lockCall t m < s.lockCall u m
  mutexes : ∀ t m, m ∈ (s.threads t).mutexes ↔
    (s.mutexes m).owner = some t ∨ .lockWait m ∈ (s.threads t).frames

theorem LockOk.mutexOk (h : s.LockOk) : MutexOk s := by
  have hgood := h.inv.good
  refine ⟨fun m => (hgood m).free, ?_, fun m => (hgood m).nodup, fun m => (hgood m).order, ?_⟩
  · intro t m
    rw [← mem_lockWaits]
    exact (hgood m).ring t
  · intro t m
    rw [← mem_lockWaits]
    exact h.inv.held t m

/-! Disturbing a waiting call breaks the promise at once. -/

theorem lock_undisturbed (h : s.LockOk) (hok : MutexOk (s.lockThreadMutex t m)) :
    t ∉ (s.mutexes m).waitingThreads := by
  intro hm
  have howner : ¬ (s.mutexes m).owner = some t := (((h.inv.good m).ring t).mp hm).2
  cases ho : (s.mutexes m).owner with
  | none =>
    have hring : (s.mutexes m).waitingThreads = [] := (h.inv.good m).free ho
    rw [hring] at hm
    exact absurd hm List.not_mem_nil
  | some o =>
    have hadded : ((s.lockThreadMutex t m).mutexes m).waitingThreads =
        (s.mutexes m).waitingThreads ++ [t] := by
      unfold lockThreadMutex
      dsimp only
      rw [if_neg howner, ho]
      simp [setMutex]
    have honce := hok.once m
    rw [hadded] at honce
    exact (List.nodup_append.mp honce).2.2 t hm t (by simp) rfl

theorem unlock_undisturbed (hok : MutexOk (s.unlockThreadMutex t m))
    (owner : (s.mutexes m).owner = some t) : .lockWait m ∉ (s.threads t).frames := by
  intro hw
  have hview := lockView_unlockThreadMutex owner
  -- The waiting call is still there, but the mutex is no longer listed.
  have hheld : m ∉ (s.unlockThreadMutex t m).lockView.held t := by
    rw [hview]
    simp [LockView.release]
  have hwaits : m ∈ (s.unlockThreadMutex t m).lockView.waits t := by
    rw [hview]
    exact mem_lockWaits.mpr hw
  exact hheld ((hok.mutexes t m).mpr (.inr (mem_lockWaits.mp hwaits)))

theorem escape_undisturbed {depth block} (h : s.LockOk)
    (hok : MutexOk ((s.setFrames t ((s.threads t).frames.drop depth)).setThreadEventBlock t block))
    (hm : m ∈ lockWaits ((s.threads t).frames.take depth)) : (s.mutexes m).owner = some t := by
  by_contra howner
  generalize hs' : (s.setFrames t ((s.threads t).frames.drop depth)).setThreadEventBlock t block =
    s' at hok
  have hview : s'.lockView = s.lockView.complete t (lockWaits ((s.threads t).frames.drop depth)) :=
    by rw [← hs', lockView_setThreadEventBlock, lockView_setFrames]
  have hsplit : s.lockView.waits t = _ := lockWaits_take_drop (s.threads t).frames depth
  -- The thread is still on the ring, but the call is gone.
  have hring : t ∈ (s'.lockView.table m).waitingThreads := by
    rw [hview]
    refine ((h.inv.good m).ring t).mpr ⟨?_, howner⟩
    rw [hsplit]
    exact List.mem_append_left _ hm
  have hgone : m ∉ s'.lockView.waits t := by
    rw [hview]
    simp only [LockView.complete, update_self]
    have honce := h.inv.waitsOnce t
    rw [hsplit] at honce
    intro hdrop
    exact (List.nodup_append.mp honce).2.2 m hm m hdrop rfl
  exact hgone (mem_lockWaits.mpr ((hok.ring t m).mp hring).1)

theorem undisturbed_of_mutexOk (h : s.LockOk) (hs : s.step a = some s')
    (hok : MutexOk s') : Undisturbed s a := by
  intro hc t hq
  have hs : s.userStep t a = some s' := by
    unfold step at hs
    rwa [hc, Option.mem_def.mp hq] at hs
  cases a with
  | lock m =>
    cases hs
    exact lock_undisturbed h hok
  | unlock m =>
    cases hs
    exact unlock_undisturbed hok
  | escape depth block =>
    simp only [Kernel.userStep] at hs
    split at hs
    · cases hs
    · cases hs
      exact fun m hm => escape_undisturbed h hok hm
  | _ => trivial

/-! ## Releasing and returning -/

/-- In this step thread `t`, which owns `m`, unlocks it or finishes its exit. -/
def Releases (s : Kernel) (a : Action) (t : ThreadId) (m : MutexId) : Prop :=
  s.control = .user ∧ s.queue.first = some t ∧ (s.mutexes m).owner = some t ∧
    (a = .unlock m ∨ a = .return ∧ (s.threads t).frames.head? = some .exiting)

/-- In this step a call of `lock-thread-mutex` by `t` on `m` returns, either at
once or from its loop. -/
def LockReturns (s : Kernel) (a : Action) (s' : Kernel) (t : ThreadId) (m : MutexId) : Prop :=
  s.queue.first = some t ∧ s'.control = .user ∧
    (s.control = .user ∧ a = .lock m ∧ (s.mutexes m).owner ≠ some t ∨
      s.control = .return ∧ (s.threads t).frames.head? = some (.lockWait m))

theorem releases_passOn
    (hn : (s.lockView.held t).Nodup) (hheld : (s.mutexes m).owner = some t → m ∈ s.lockView.held t)
    (hs : s.step a = some s') (hr : Releases s a t m) : s'.mutexes m = (s.mutexes m).passOn := by
  obtain ⟨hc, hq, owner, hcase⟩ := hr
  have hs : s.userStep t a = some s' := by
    unfold step at hs
    rwa [hc, hq] at hs
  obtain rfl | ⟨rfl, hf⟩ := hcase
  · cases hs
    have hview := congrFun (congrArg LockView.table (lockView_unlockThreadMutex owner)) m
    exact hview.trans (update_self m _ _)
  · obtain ⟨frames, hframes⟩ : ∃ frames, (s.threads t).frames = .exiting :: frames := by
      cases hfs : (s.threads t).frames with
      | nil =>
        rw [hfs] at hf
        cases hf
      | cons f fs =>
        rw [hfs] at hf
        cases hf
        exact ⟨fs, rfl⟩
    simp only [Kernel.userStep, hframes] at hs
    cases hs
    have hview := congrFun (congrArg LockView.table
      (lockView_finishExit s t hn)) m
    refine hview.trans ?_
    have howner : (s.lockView.table m).owner = some t := owner
    simp only [LockView.leave, hheld owner, if_true, Mutex.leave, howner]
    rfl

theorem lockReturns_owner (hs : s.step a = some s')
    (hr : LockReturns s a s' t m) : (s'.mutexes m).owner = some t := by
  obtain ⟨hq, hc', ⟨hc, rfl, hne⟩ | ⟨hc, hf⟩⟩ := hr
  · have hs : s.userStep t (.lock m) = some s' := by
      unfold step at hs
      rwa [hc, hq] at hs
    cases hs
    cases ho : (s.mutexes m).owner with
    | none => simp [lockThreadMutex, ho, setMutex]
    | some o =>
      rw [ho] at hne
      simp [lockThreadMutex, ho, hne] at hc'
  · cases hframes : (s.threads t).frames with
    | nil =>
      rw [hframes] at hf
      cases hf
    | cons frame frames =>
      rw [hframes] at hf
      cases hf
      simp only [step, hc, hq] at hs
      cases a <;> try cases hs
      simp only [kernelStep, hc, returnToFrame, hframes] at hs
      cases hs
      split at hc'
      case isTrue owner =>
        rw [if_pos owner]
        exact owner
      case isFalse => cases hc'

/-- **Thread mutexes give mutual exclusion with first-come hand-off**, in every
run in which no code disturbs a waiting call of `lock-thread-mutex`; the step
that disturbs one breaks the promise. -/
theorem thread_mutexes_sound (actions : List Action) {s : Kernel}
    (hr : run step initial actions = some s) (hu : Along step Undisturbed initial actions) :
    MutexOk s ∧ ∀ a s', s.step a = some s' →
      (MutexOk s' ↔ Undisturbed s a) ∧
      (∀ t m, Releases s a t m →
        s'.mutexes m = ⟨(s.mutexes m).waitingThreads.head?, (s.mutexes m).waitingThreads.tail⟩) ∧
      (∀ t m, Undisturbed s a → (s.mutexes m).owner = some t → (s'.mutexes m).owner ≠ some t →
        s.queue.first = some t ∧
          s'.mutexes m =
            ⟨(s.mutexes m).waitingThreads.head?, (s.mutexes m).waitingThreads.tail⟩) ∧
      ∀ t m, LockReturns s a s' t m → (s'.mutexes m).owner = some t := by
  have hok : s.LockOk := run_invariant (fun h hc hs => step_lockOk h hc hs) initial_lockOk hu hr
  refine ⟨hok.mutexOk, ?_⟩
  intro a s' hs
  refine ⟨⟨undisturbed_of_mutexOk hok hs, fun hc => (step_lockOk hok hc hs).mutexOk⟩,
    fun t m => releases_passOn (hok.inv.heldOnce t) (fun ho => (hok.inv.held t m).mpr (.inl ho)) hs,
    ?_, fun t m => lockReturns_owner hs⟩
  intro t m hc owner hn
  obtain heq | ⟨u, -, hq, hstep⟩ := step_lockStep hok hc hs
  · have htable : s'.mutexes = s.mutexes := congrArg LockView.table heq
    rw [htable] at hn
    exact absurd owner hn
  · obtain ⟨rfl, hpass⟩ := hstep.passes_on owner hn
    exact ⟨hq, hpass⟩

/-- Thread 0 holds the mutex that thread 1 waits for. -/
theorem thread_mutexes_sound_one_waiter :
    ∃ s, run step initial [.createThread .no, .lock 0, .yield [], .kernel [], .kernel [],
        .kernel [], .lock 0, .kernel [], .kernel [], .kernel [], .kernel [], .kernel []] = some s ∧
      (s.mutexes 0).waitingThreads = [1] ∧
      MutexOk s ∧ ∀ a s', s.step a = some s' →
        (MutexOk s' ↔ Undisturbed s a) ∧
        (∀ t m, Releases s a t m →
          s'.mutexes m = ⟨(s.mutexes m).waitingThreads.head?, (s.mutexes m).waitingThreads.tail⟩) ∧
        (∀ t m, Undisturbed s a → (s.mutexes m).owner = some t → (s'.mutexes m).owner ≠ some t →
          s.queue.first = some t ∧
            s'.mutexes m =
              ⟨(s.mutexes m).waitingThreads.head?, (s.mutexes m).waitingThreads.tail⟩) ∧
        ∀ t m, LockReturns s a s' t m → (s'.mutexes m).owner = some t := by
  refine ⟨_, rfl, rfl, ?_⟩
  exact thread_mutexes_sound [.createThread .no, .lock 0, .yield [], .kernel [], .kernel [],
    .kernel [], .lock 0, .kernel [], .kernel [], .kernel [], .kernel [], .kernel []] rfl (by decide)

/-- While thread 1 waits for the mutex, an event locks it again, and unlocks it
when it gets it: the first call then returns with a mutex that is not in
`thread/mutexes`. -/
theorem thread_mutexes_relock_in_event :
    ∃ s, run step initial [.createThread .no, .lock 0, .yield [], .kernel [], .kernel [],
        .kernel [], .lock 0, .kernel [], .kernel [], .kernel [], .kernel [], .kernel [],
        .signal 1 (some 9), .yield [], .kernel [], .lock 0, .kernel [], .kernel [], .kernel [],
        .kernel [], .kernel [], .unlock 0, .yield [], .kernel [], .kernel [], .kernel [],
        .unlock 0, .return, .kernel [], .kernel [], .kernel [], .kernel []] = some s ∧
      s.control = .user ∧ s.queue.first = some 1 ∧ (s.mutexes 0).owner = some 1 ∧
      (s.threads 1).mutexes = [] ∧ ¬ MutexOk s := by
  refine ⟨_, rfl, rfl, rfl, rfl, rfl, ?_⟩
  intro hok
  have hm : 0 ∈ ([] : List MutexId) := (hok.mutexes 1 0).mpr (.inl rfl)
  exact absurd hm List.not_mem_nil

end Kernel

end MitScheme.Runtime.ThreadKernel
