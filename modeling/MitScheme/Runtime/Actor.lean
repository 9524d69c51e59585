import MitScheme.Runtime.ThreadMutex

/-! # Actor isolation

The actors of `task.scm`: `actor-call`, the suspension points, and the thread
events that may run user code between any two steps of a thread. What a thread
has still to do is a list; the `after` thunks of a `dynamic-wind` are put on it
when its `before` thunk has run, so that a non-local exit leaves them there. -/

namespace MitScheme.Runtime.Actor
open Lib.Machine Function
open ThreadKernel (ThreadId Mutex Kernel)

abbrev ActorId := Nat

/-! ## Threads -/

/-- A thunk that runs with the current actor changed. -/
inductive Thunk
  | user
  /-- The waiting part of a suspension point. -/
  | pause
  /-- `with-thread-mutex-lock` in `actor-call`. -/
  | acquire (actor : ActorId)
  deriving DecidableEq

inductive Instr
  /-- Code of the user: a thunk, an event, or the code of the thread. -/
  | user
  | pause
  /-- `unlock-thread-mutex` on the way into `without-thread-mutex-lock`. -/
  | release (actor : ActorId) (thunk : Thunk)
  /-- `%with-current-actor`. -/
  | setCurrent (actor : Option ActorId) (thunk : Thunk)
  /-- `lock-thread-mutex` on the way into `with-thread-mutex-lock`. -/
  | acquire (actor : ActorId)
  /-- The same in its loop. -/
  | acquiring (actor : ActorId)
  /-- `%with-current-actor` on the way out. -/
  | restore (outer : Option ActorId)
  /-- `with-thread-mutex-lock` on the way out. -/
  | unlock (actor : ActorId)
  /-- `without-thread-mutex-lock` on the way out. -/
  | relock (actor : ActorId)
  /-- The same in its loop. -/
  | relocking (actor : ActorId)
  deriving DecidableEq

def Thunk.instr : Thunk → Instr
  | .user => .user
  | .pause => .pause
  | .acquire b => .acquire b

/-- The actor is the property `%actor-key` of the thread. -/
structure Thread where
  actor : Option ActorId
  todo : List Instr

/-! ## What user code calls -/

namespace Thread

def withActorReleased (x : Thread) (thunk : Thunk) : Thread :=
  match x.actor with
  | some a => { x with todo := .release a thunk :: x.todo }
  | none => { x with todo := thunk.instr :: x.todo }

def actorCall (x : Thread) (b : ActorId) : Thread :=
  if x.actor = some b then { x with todo := .user :: x.todo }
  else x.withActorReleased (.acquire b)

end Thread

def unwind (l : List Instr) : List Instr :=
  l.filter fun
    | .restore _ | .unlock _ | .relock _ => true
    | _ => false

/-! ## Steps of the runtime system -/

structure World where
  threads : ThreadId → Thread
  threadCount : Nat
  mutexes : ActorId → Mutex

namespace World

def setThread (s : World) (t : ThreadId) (x : Thread) : World :=
  { s with threads := update s.threads t x }

def setMutex (s : World) (a : ActorId) (x : Mutex) : World :=
  { s with mutexes := update s.mutexes a x }

/-- `lock-thread-mutex` by `t`, which has then `next` to do, or `wait` when it
must wait. It signals an error when `t` is the owner. -/
def lock (s : World) (t : ThreadId) (a : ActorId) (next wait : List Instr) : Option World :=
  match (s.mutexes a).owner with
  | none =>
    some ((s.setMutex a { s.mutexes a with owner := some t }).setThread t
      { s.threads t with todo := next })
  | some o =>
    if o = t then none
    else
      some ((s.setMutex a { s.mutexes a with
        waitingThreads := (s.mutexes a).waitingThreads ++ [t] }).setThread t
          { s.threads t with todo := wait })

/-- The test of the loop of `lock-thread-mutex`. -/
def locked (s : World) (t : ThreadId) (a : ActorId) (next : List Instr) : Option World :=
  if (s.mutexes a).owner = some t then some (s.setThread t { s.threads t with todo := next })
  else none

/-- `unlock-thread-mutex` by `t`. It signals an error unless `t` is the owner. -/
def unlock (s : World) (t : ThreadId) (a : ActorId) (next : List Instr) : Option World :=
  if (s.mutexes a).owner = some t then
    some ((s.setMutex a (s.mutexes a).passOn).setThread t { s.threads t with todo := next })
  else none

/-- Thread `t` does the first of what it has to do. -/
def advance (s : World) (t : ThreadId) : Option World :=
  let x := s.threads t
  match x.todo with
  | [] => none
  | .user :: _ => none
  | .pause :: l => some (s.setThread t { x with todo := l })
  | .release a thunk :: l => s.unlock t a (.setCurrent none thunk :: .relock a :: l)
  | .setCurrent actor thunk :: l =>
    some (s.setThread t ⟨actor, thunk.instr :: .restore x.actor :: l⟩)
  | .acquire b :: l =>
    s.lock t b (.setCurrent (some b) .user :: .unlock b :: l) (.acquiring b :: l)
  | .acquiring b :: l => s.locked t b (.setCurrent (some b) .user :: .unlock b :: l)
  | .restore outer :: l => some (s.setThread t ⟨outer, l⟩)
  | .unlock b :: l => s.unlock t b l
  | .relock a :: l => s.lock t a l (.relocking a :: l)
  | .relocking a :: l => s.locked t a l

end World

/-! ## Steps -/

inductive Action
  /-- User code of `t` makes a thread: `actor-async` and the other ways to spawn. -/
  | spawn (t : ThreadId)
  | call (t : ThreadId) (b : ActorId)
  /-- `await`, `task-sleep`, `task-yield` and the other suspension points. -/
  | suspend (t : ThreadId)
  | return (t : ThreadId)
  /-- User code leaves that much of what `t` has to do. -/
  | escape (t : ThreadId) (depth : Nat)
  /-- A thread event starts to run in `t`. -/
  | event (t : ThreadId)
  | advance (t : ThreadId)

namespace World

def UserCode (s : World) (t : ThreadId) : Prop := (s.threads t).todo.head? = some .user

instance (s : World) (t : ThreadId) : Decidable (s.UserCode t) :=
  inferInstanceAs (Decidable (_ = _))

def step (s : World) : Action → Option World
  | .spawn t =>
    if s.UserCode t then
      some { s.setThread s.threadCount ⟨none, [.user]⟩ with threadCount := s.threadCount + 1 }
    else none
  | .call t b =>
    if s.UserCode t then some (s.setThread t ((s.threads t).actorCall b)) else none
  | .suspend t =>
    if s.UserCode t then some (s.setThread t ((s.threads t).withActorReleased .pause)) else none
  | .return t =>
    if s.UserCode t then
      some (s.setThread t { s.threads t with todo := (s.threads t).todo.tail })
    else none
  | .escape t depth =>
    let todo := (s.threads t).todo
    if s.UserCode t ∧ (todo.drop depth = [] ∨ (todo.drop depth).head? = some .user) then
      some (s.setThread t { s.threads t with todo := unwind (todo.take depth) ++ todo.drop depth })
    else none
  | .event t =>
    if (s.threads t).todo ≠ [] then
      some (s.setThread t { s.threads t with todo := .user :: (s.threads t).todo })
    else none
  | .advance t => s.advance t

def initial : World where
  threads := update (fun _ => ⟨none, []⟩) 0 ⟨none, [.user]⟩
  threadCount := 1
  mutexes := fun _ => ⟨none, []⟩

/-! The mutexes are those of the thread kernel. -/

/-- The call of the kernel that a step makes. -/
def kernelCall (s : World) (k : Kernel) : Action → Kernel
  | .advance t =>
    match (s.threads t).todo with
    | .acquire a :: _ | .relock a :: _ => k.lockThreadMutex t a
    | .release a _ :: _ | .unlock a :: _ => k.unlockThreadMutex t a
    | _ => k
  | _ => k

section Kernel
variable {s s' : World} {t : ThreadId} {a : ActorId} {k : Kernel} (hk : k.mutexes = s.mutexes)
include hk

theorem lock_kernel {next wait} (h : s.lock t a next wait = some s') :
    (k.lockThreadMutex t a).mutexes = s'.mutexes := by
  unfold lock at h
  split at h
  case h_1 free =>
    cases h
    rw [Kernel.lockThreadMutex_mutexes (by simp [hk, free]), hk, if_pos free]
    rfl
  case h_2 owner owned =>
    split at h
    · cases h
    case isFalse other =>
      cases h
      rw [Kernel.lockThreadMutex_mutexes (by simp [hk, owned, other]), hk,
        if_neg (by simp [owned])]
      rfl

theorem unlock_kernel {next} (h : s.unlock t a next = some s') :
    (k.unlockThreadMutex t a).mutexes = s'.mutexes := by
  unfold unlock at h
  split at h
  case isTrue owner =>
    cases h
    rw [Kernel.unlockThreadMutex_mutexes (hk ▸ owner), hk]
    rfl
  case isFalse => cases h

theorem step_kernel {a} (h : s.step a = some s') : (s.kernelCall k a).mutexes = s'.mutexes := by
  cases a with
  | advance t =>
    simp only [kernelCall]
    simp only [step, advance] at h
    cases htodo : (s.threads t).todo with
    | nil => rw [htodo] at h; cases h
    | cons i l =>
      rw [htodo] at h
      cases i with
      | user => cases h
      | acquire a | relock a => exact lock_kernel hk h
      | release a thunk | unlock a => exact unlock_kernel hk h
      | acquiring a | relocking a =>
        simp only [locked] at h
        split at h
        · cases h; exact hk
        · cases h
      | _ => cases h; exact hk
  | _ =>
    unfold step at h
    dsimp only at h
    split at h
    · cases h; exact hk
    · cases h

end Kernel

/-- **The mutexes of the actors are those of the thread kernel**: in every run, the kernel that
performs the calls of the run has the owners and the rings of the actors. -/
theorem actor_mutexes_refine_kernel (actions : List Action) {s : World} (k : Kernel)
    (hk : k.mutexes = initial.mutexes) (hr : run step initial actions = some s) :
    (follow step kernelCall initial k actions).mutexes = s.mutexes :=
  follow_related (R := fun s k => Kernel.mutexes k = s.mutexes)
    (fun hk hs => step_kernel hk hs) hk hr

/-- Two threads call one actor, and the second one waits. -/
theorem actor_mutexes_refine_kernel_two_calls :
    ∃ s, run step initial [.spawn 0, .call 0 7, .advance 0, .call 1 7, .advance 1] = some s ∧
      (s.mutexes 7).waitingThreads = [1] ∧
      (follow step kernelCall initial Kernel.initial
        [.spawn 0, .call 0 7, .advance 0, .call 1 7, .advance 1]).mutexes = s.mutexes := by
  refine ⟨_, rfl, rfl, ?_⟩
  exact actor_mutexes_refine_kernel _ _ rfl rfl

end World

/-! ## The invariant -/

def Instr.waitsFor : Instr → Option ActorId
  | .acquiring a | .relocking a => some a
  | _ => none

def waitsFor (l : List Instr) : Option ActorId := l.head?.bind Instr.waitsFor

/-- A thread with current actor `actor`, which owns the mutex of `own` only, can
do this: its actor and its mutex agree where user code or an event may run, and
it locks and unlocks in turn. -/
def Fits (actor own : Option ActorId) : List Instr → Prop
  | [] => actor = none ∧ own = none
  | .user :: l => actor = own ∧ Fits actor own l
  | .pause :: l => actor = own ∧ Fits actor own l
  | .release a _ :: l => actor = some a ∧ own = some a ∧ Fits actor own l
  | .setCurrent x thunk :: l =>
    x = own ∧ (∀ b, thunk = .acquire b → own = none) ∧ Fits actor own l
  | .acquire _ :: l => actor = none ∧ own = none ∧ Fits actor own l
  | .acquiring _ :: l => actor = none ∧ own = none ∧ Fits actor own l
  | .restore outer :: l => actor = own ∧ Fits outer own l
  | .unlock b :: l => own = some b ∧ Fits actor none l
  | .relock a :: l => own = none ∧ Fits actor (some a) l
  | .relocking a :: l => own = none ∧ Fits actor (some a) l

theorem Fits.unwind {actor own l rest} (h : Fits actor own (l ++ rest))
    (hw : ∀ i ∈ l, i.waitsFor = none) : Fits actor own (unwind l ++ rest) := by
  induction l generalizing actor own with
  | nil => exact h
  | cons i l ih =>
    have hw' : ∀ j ∈ l, j.waitsFor = none := fun j hj => hw j (.tail _ hj)
    cases i with
    | user => exact ih h.2 hw'
    | pause => exact ih h.2 hw'
    | release a thunk => exact ih h.2.2 hw'
    | setCurrent x thunk => exact ih h.2.2 hw'
    | acquire b => exact ih h.2.2 hw'
    | restore outer => exact ⟨h.1, ih h.2 hw'⟩
    | unlock b => exact ⟨h.1, ih h.2 hw'⟩
    | relock a => exact ⟨h.1, ih h.2 hw'⟩
    | acquiring b => cases hw _ (.head _)
    | relocking a => cases hw _ (.head _)

/-- The thread is inside the step from one pair of actor and mutex to another. -/
def Instr.Window : Instr → Bool
  | .setCurrent _ _ | .acquiring _ | .unlock _ | .relock _ | .relocking _ => true
  | _ => false

theorem Fits.agree {actor own i l} (h : Fits actor own (i :: l)) (hi : i.Window = false) :
    actor = own := by
  cases i with
  | user => exact h.1
  | pause => exact h.1
  | release a thunk => rw [h.1, h.2.1]
  | acquire b => rw [h.1, h.2.1]
  | restore outer => exact h.1
  | _ => cases hi

theorem Fits.waiting {actor own l a} (h : Fits actor own l) (hw : waitsFor l = some a) :
    own = none := by
  cases l with
  | nil => cases hw
  | cons i l =>
    cases i with
    | acquiring b => exact h.2.1
    | relocking b => exact h.1
    | _ => cases hw

/-- A thread that owns the mutex of `own` only. A mutex it waited for may have
been handed to it already. -/
structure Thread.Ok (x : Thread) (own : Option ActorId) : Prop where
  fits : Fits x.actor own x.todo ∨
    own ≠ none ∧ waitsFor x.todo = own ∧ Fits x.actor none x.todo
  settled : ∀ i ∈ x.todo.tail, i.waitsFor = none

namespace World

structure Inv (s : World) : Prop where
  threads : ∀ t, ∃ own, (∀ a, (s.mutexes a).owner = some t ↔ own = some a) ∧ (s.threads t).Ok own
  ring : ∀ a, ∀ t ∈ (s.mutexes a).waitingThreads,
    waitsFor (s.threads t).todo = some a ∧ (s.mutexes a).owner ≠ some t
  once : ∀ a, (s.mutexes a).waitingThreads.Nodup
  absent : ∀ t, s.threadCount ≤ t → s.threads t = ⟨none, []⟩

variable {s s' : World} {t : ThreadId} {a : ActorId} {own : Option ActorId} {x : Thread}
  {next wait : List Instr}

theorem setThread_self (s : World) (t x) : (s.setThread t x).threads t = x := by
  simp [setThread]

theorem setThread_of_ne {u} (s : World) (x) (h : u ≠ t) :
    (s.setThread t x).threads u = s.threads u := by
  simp [setThread, h]

section
variable (h : Inv s)
include h

theorem Inv.not_ring (hw : waitsFor (s.threads t).todo = none) (a) :
    t ∉ (s.mutexes a).waitingThreads := by
  intro hm
  rw [(h.ring a t hm).1] at hw
  cases hw

theorem Inv.lt_threadCount (ht : (s.threads t).todo ≠ []) : t < s.threadCount := by
  refine Nat.lt_of_not_le fun hle => ht ?_
  rw [h.absent t hle]

theorem Inv.setThread (ht : t < s.threadCount) (hring : ∀ a, t ∉ (s.mutexes a).waitingThreads)
    (hself : ∃ own, (∀ a, (s.mutexes a).owner = some t ↔ own = some a) ∧ x.Ok own) :
    Inv (s.setThread t x) := by
  refine ⟨?_, ?_, h.once, ?_⟩
  · intro u
    by_cases hut : u = t
    · subst hut
      rw [setThread_self]
      exact hself
    · rw [setThread_of_ne s x hut]
      exact h.threads u
  · intro a u hu
    have hut : u ≠ t := fun hut => hring a (hut ▸ hu)
    rw [setThread_of_ne s x hut]
    exact h.ring a u hu
  · intro u hu
    have hut : u ≠ t := Nat.ne_of_gt (Nat.lt_of_lt_of_le ht hu)
    rw [setThread_of_ne s x hut]
    exact h.absent u hu

theorem Inv.ring_own {u} (hu : u ∈ (s.mutexes a).waitingThreads)
    (hown : ∀ b, (s.mutexes b).owner = some u ↔ own = some b) (hok : (s.threads u).Ok own) :
    own = none ∧ Fits (s.threads u).actor none (s.threads u).todo := by
  obtain ⟨hw, hne⟩ := h.ring a u hu
  obtain hfits | ⟨-, hgranted, -⟩ := hok.fits
  · have hnone := hfits.waiting hw
    rw [hnone] at hfits
    exact ⟨hnone, hfits⟩
  · rw [hw] at hgranted
    exact absurd ((hown a).mpr hgranted.symm) hne

theorem Inv.setMutex (ht : t < s.threadCount) {m} (hring : ∀ b, t ∉ (s.mutexes b).waitingThreads)
    (hself : ∃ own, (∀ b, (update s.mutexes a m b).owner = some t ↔ own = some b) ∧
      x.Ok own) (hothers : ∀ u, u ≠ t → (m.owner = some u ↔ (s.mutexes a).owner = some u) ∨
      m.owner = some u ∧ u ∈ (s.mutexes a).waitingThreads)
    (hwaits : ∀ u ∈ m.waitingThreads, m.owner ≠ some u ∧
      (u ∈ (s.mutexes a).waitingThreads ∨ u = t ∧ waitsFor x.todo = some a))
    (honce : m.waitingThreads.Nodup) : Inv ((s.setMutex a m).setThread t x) := by
  have htable : ((s.setMutex a m).setThread t x).mutexes = update s.mutexes a m := rfl
  refine ⟨?_, ?_, ?_, ?_⟩
  · intro u
    by_cases hut : u = t
    · subst hut
      rw [setThread_self]
      exact hself
    · rw [setThread_of_ne _ x hut, htable]
      obtain ⟨own, hown, hok⟩ := h.threads u
      obtain hsame | ⟨hnew, hu⟩ := hothers u hut
      · refine ⟨own, ?_, hok⟩
        intro b
        by_cases hba : b = a
        · subst hba
          rw [update_self, hsame]
          exact hown b
        · rw [update_of_ne hba]
          exact hown b
      · -- The mutex is handed to a thread that waits for it.
        obtain ⟨rfl, hfits⟩ := h.ring_own hu hown hok
        refine ⟨some a, ?_, .inr ⟨nofun, (h.ring a u hu).1, hfits⟩, hok.settled⟩
        intro b
        by_cases hba : b = a
        · subst hba
          rw [update_self]
          exact iff_of_true hnew rfl
        · rw [update_of_ne hba, hown b]
          simp [Ne.symm hba]
  · intro b u hu
    rw [htable] at hu ⊢
    by_cases hba : b = a
    · subst hba
      rw [update_self] at hu ⊢
      obtain ⟨hne, hold | ⟨rfl, hw⟩⟩ := hwaits u hu
      · have hut : u ≠ t := fun hut => hring b (hut ▸ hold)
        rw [setThread_of_ne _ x hut]
        exact ⟨(h.ring b u hold).1, hne⟩
      · rw [setThread_self]
        exact ⟨hw, hne⟩
    · rw [update_of_ne hba] at hu ⊢
      have hut : u ≠ t := fun hut => hring b (hut ▸ hu)
      rw [setThread_of_ne _ x hut]
      exact h.ring b u hu
  · intro b
    rw [htable]
    by_cases hba : b = a
    · subst hba
      rw [update_self]
      exact honce
    · rw [update_of_ne hba]
      exact h.once b
  · intro u hu
    have hut : u ≠ t := Nat.ne_of_gt (Nat.lt_of_lt_of_le ht hu)
    rw [setThread_of_ne _ x hut]
    exact h.absent u hu

theorem Inv.lock (ht : t < s.threadCount) (hw : waitsFor (s.threads t).todo = none)
    (hown : ∀ b, (s.mutexes b).owner ≠ some t)
    (hnext : Thread.Ok { s.threads t with todo := next } (some a))
    (hwait : Thread.Ok { s.threads t with todo := wait } none) (hwait' : waitsFor wait = some a)
    (hs : s.lock t a next wait = some s') : Inv s' := by
  have hring := h.not_ring hw
  unfold World.lock at hs
  cases ho : (s.mutexes a).owner with
  | none =>
    rw [ho] at hs
    cases hs
    refine h.setMutex ht hring ⟨some a, ?_, hnext⟩ ?_ ?_ (h.once a)
    · intro b
      by_cases hba : b = a
      · subst hba
        simp
      · simp [hba, Ne.symm hba, hown b]
    · intro u hut
      left
      simp [ho, Ne.symm hut]
    · intro u hu
      refine ⟨?_, .inl hu⟩
      intro heq
      cases heq
      exact hring a hu
  | some o =>
    rw [ho] at hs
    dsimp only at hs
    split at hs
    · cases hs
    · cases hs
      refine h.setMutex ht hring ⟨none, ?_, hwait⟩ ?_ ?_ ?_
      · intro b
        by_cases hba : b = a
        · subst hba
          simpa using hown b
        · simpa [hba] using hown b
      · intro u _
        exact .inl Iff.rfl
      · intro u hu
        rw [List.mem_append, List.mem_singleton] at hu
        obtain hu | rfl := hu
        · exact ⟨(h.ring a u hu).2, .inl hu⟩
        · exact ⟨hown a, .inr ⟨rfl, hwait'⟩⟩
      · refine List.nodup_append.mpr ⟨h.once a, List.nodup_singleton t, ?_⟩
        intro u hu v hv heq
        rw [List.mem_singleton] at hv
        exact hring a (hv ▸ heq ▸ hu)

theorem Inv.unlock (ht : t < s.threadCount) (hw : waitsFor (s.threads t).todo = none)
    (hown : ∀ b, (s.mutexes b).owner = some t ↔ some a = some b)
    (hnext : Thread.Ok { s.threads t with todo := next } none) (hs : s.unlock t a next = some s') :
    Inv s' := by
  have hring := h.not_ring hw
  unfold World.unlock at hs
  split at hs
  case isFalse => cases hs
  case isTrue owner =>
    cases hs
    have honce := h.once a
    have hhead : ∀ u, (s.mutexes a).passOn.owner = some u → u ∈ (s.mutexes a).waitingThreads :=
      fun u hu => List.mem_of_head? hu
    refine h.setMutex ht hring ⟨none, ?_, hnext⟩ ?_ ?_ (honce.sublist (List.tail_sublist _))
    · intro b
      by_cases hba : b = a
      · subst hba
        rw [update_self]
        exact iff_of_false (fun ho => hring b (hhead t ho)) nofun
      · rw [update_of_ne hba, hown b]
        simp [Ne.symm hba]
    · intro u hut
      by_cases hu : (s.mutexes a).passOn.owner = some u
      · exact .inr ⟨hu, hhead u hu⟩
      · refine .inl (iff_of_false hu ?_)
        rw [owner]
        exact fun heq => hut (Option.some.inj heq).symm
    · intro u hu
      refine ⟨?_, .inl (List.mem_of_mem_tail hu)⟩
      cases hr : (s.mutexes a).waitingThreads with
      | nil =>
        simp [Mutex.passOn, hr] at hu
      | cons w ring =>
        rw [hr] at honce
        simp only [Mutex.passOn, hr, List.tail_cons, List.head?_cons] at hu ⊢
        intro heq
        cases heq
        exact (List.nodup_cons.mp honce).1 hu

theorem Inv.fits (hw : waitsFor (s.threads t).todo = none) :
    ∃ own, (∀ a, (s.mutexes a).owner = some t ↔ own = some a) ∧
      Fits (s.threads t).actor own (s.threads t).todo ∧
      ∀ i ∈ (s.threads t).todo.tail, i.waitsFor = none := by
  obtain ⟨own, hown, hok⟩ := h.threads t
  refine ⟨own, hown, ?_, hok.settled⟩
  obtain hfits | ⟨hne, hgranted, -⟩ := hok.fits
  · exact hfits
  · rw [hw] at hgranted
    exact absurd hgranted.symm hne

theorem Inv.locked (ht : t < s.threadCount) (hw : waitsFor (s.threads t).todo = some a)
    (hnext : Fits (s.threads t).actor none (s.threads t).todo →
      Thread.Ok { s.threads t with todo := next } (some a)) (hs : s.locked t a next = some s') :
    Inv s' := by
  unfold World.locked at hs
  split at hs
  case isFalse => cases hs
  case isTrue owner =>
    cases hs
    obtain ⟨own, hown, hok⟩ := h.threads t
    have hgot : own = some a := (hown a).mp owner
    subst hgot
    refine h.setThread ht ?_ ⟨some a, hown, hnext ?_⟩
    · intro b hb
      obtain ⟨hwb, hne⟩ := h.ring b t hb
      rw [hw] at hwb
      cases hwb
      exact hne owner
    · obtain hfits | ⟨-, -, hfits⟩ := hok.fits
      · cases hfits.waiting hw
      · exact hfits

theorem Inv.advance (hs : s.advance t = some s') : Inv s' := by
  have ht : t < s.threadCount := by
    refine h.lt_threadCount fun hnil => ?_
    simp [World.advance, hnil] at hs
  unfold World.advance at hs
  dsimp only at hs
  cases htodo : (s.threads t).todo with
  | nil =>
    rw [htodo] at hs
    cases hs
  | cons i l =>
    rw [htodo] at hs
    have hhead : waitsFor (s.threads t).todo = i.waitsFor := by
      rw [htodo]
      rfl
    have hl : ∀ j ∈ l, j.waitsFor = none := by
      obtain ⟨own, -, hok⟩ := h.threads t
      have hsettled := hok.settled
      rwa [htodo] at hsettled
    have htail : ∀ j ∈ l.tail, j.waitsFor = none := fun j hj => hl j (List.mem_of_mem_tail hj)
    have hcons : ∀ k : Instr, k.waitsFor = none → ∀ j ∈ k :: l, j.waitsFor = none := fun k hk =>
      List.forall_mem_cons.mpr ⟨hk, hl⟩
    cases i with
    | acquiring b =>
      refine h.locked ht hhead (fun hf => ?_) hs
      rw [htodo] at hf
      exact ⟨.inl ⟨rfl, nofun, rfl, hf.2.2⟩, hcons (.unlock b) rfl⟩
    | relocking a =>
      refine h.locked ht hhead (fun hf => ?_) hs
      rw [htodo] at hf
      exact ⟨.inl hf.2, htail⟩
    | user => cases hs
    | pause =>
      cases hs
      obtain ⟨own, hown, hfits, -⟩ := h.fits hhead
      rw [htodo] at hfits
      exact h.setThread ht (h.not_ring hhead) ⟨own, hown, .inl hfits.2, htail⟩
    | release a thunk =>
      obtain ⟨own, hown, hfits, -⟩ := h.fits hhead
      rw [htodo] at hfits
      obtain ⟨ha, rfl, hfits⟩ := hfits
      refine h.unlock ht hhead hown ?_ hs
      exact ⟨.inl ⟨rfl, fun _ _ => rfl, rfl, hfits⟩, hcons (.relock a) rfl⟩
    | setCurrent actor thunk =>
      cases hs
      obtain ⟨own, hown, hfits, -⟩ := h.fits hhead
      rw [htodo] at hfits
      obtain ⟨rfl, hnone, hfits⟩ := hfits
      refine h.setThread ht (h.not_ring hhead) ⟨actor, hown, .inl ?_, hcons (.restore _) rfl⟩
      cases thunk with
      | user => exact ⟨rfl, rfl, hfits⟩
      | pause => exact ⟨rfl, rfl, hfits⟩
      | acquire b => exact ⟨hnone b rfl, hnone b rfl, rfl, hfits⟩
    | acquire b =>
      obtain ⟨own, hown, hfits, -⟩ := h.fits hhead
      rw [htodo] at hfits
      obtain ⟨hactor, rfl, hfits⟩ := hfits
      refine h.lock ht hhead (fun c hc => nomatch (hown c).mp hc) ?_ ?_ rfl hs
      · exact ⟨.inl ⟨rfl, nofun, rfl, hfits⟩, hcons (.unlock b) rfl⟩
      · exact ⟨.inl ⟨hactor, rfl, hfits⟩, hl⟩
    | restore outer =>
      cases hs
      obtain ⟨own, hown, hfits, -⟩ := h.fits hhead
      rw [htodo] at hfits
      exact h.setThread ht (h.not_ring hhead) ⟨own, hown, .inl hfits.2, htail⟩
    | unlock b =>
      obtain ⟨own, hown, hfits, -⟩ := h.fits hhead
      rw [htodo] at hfits
      obtain ⟨rfl, hfits⟩ := hfits
      exact h.unlock ht hhead hown ⟨.inl hfits, htail⟩ hs
    | relock a =>
      obtain ⟨own, hown, hfits, -⟩ := h.fits hhead
      rw [htodo] at hfits
      obtain ⟨rfl, hfits⟩ := hfits
      refine h.lock ht hhead (fun c hc => nomatch (hown c).mp hc) ⟨.inl hfits, htail⟩ ?_ rfl hs
      exact ⟨.inl ⟨rfl, hfits⟩, hl⟩

end

/-! ## Steps -/

/-- A thread event starts only where actor and mutex of its thread agree. -/
def Undisturbed (s : World) : Action → Prop
  | .event t => ∀ i ∈ (s.threads t).todo.head?, i.Window = false
  | _ => True

instance (s : World) (a : Action) : Decidable (s.Undisturbed a) := by
  cases a <;> unfold Undisturbed <;> infer_instance

theorem Inv.userCode (h : Inv s) (hu : s.UserCode t)
    (hx : ∀ own l, (s.threads t).todo = .user :: l → (s.threads t).actor = own →
      Fits (s.threads t).actor own (s.threads t).todo → (∀ i ∈ l, i.waitsFor = none) → x.Ok own) :
    Inv (s.setThread t x) := by
  obtain ⟨l, htodo⟩ : ∃ l, (s.threads t).todo = .user :: l := by
    cases hl : (s.threads t).todo with
    | nil =>
      rw [UserCode, hl] at hu
      cases hu
    | cons i l =>
      rw [UserCode, hl] at hu
      cases hu
      exact ⟨l, rfl⟩
  have hw : waitsFor (s.threads t).todo = none := by
    rw [htodo]
    rfl
  obtain ⟨own, hown, hfits, hsettled⟩ := h.fits hw
  have hagree : (s.threads t).actor = own := by
    rw [htodo] at hfits
    exact hfits.1
  rw [htodo] at hsettled
  exact h.setThread (h.lt_threadCount (by rw [htodo]; nofun)) (h.not_ring hw)
    ⟨own, hown, hx own l htodo hagree hfits hsettled⟩

theorem Inv.spawn (h : Inv s) :
    Inv { s.setThread s.threadCount ⟨none, [.user]⟩ with threadCount := s.threadCount + 1 } := by
  have hnew := h.absent s.threadCount (Nat.le_refl _)
  have hw : waitsFor (s.threads s.threadCount).todo = none := by
    rw [hnew]
    rfl
  obtain ⟨own, hown, hfits, -⟩ := h.fits hw
  rw [hnew] at hfits
  obtain ⟨-, rfl⟩ := hfits
  refine ⟨?_, ?_, h.once, ?_⟩
  · intro u
    by_cases hut : u = s.threadCount
    · subst hut
      refine ⟨none, hown, ?_⟩
      rw [show _ = _ from setThread_self s s.threadCount ⟨none, [.user]⟩]
      exact ⟨.inl ⟨rfl, rfl, rfl⟩, nofun⟩
    · rw [show _ = _ from setThread_of_ne s ⟨none, [.user]⟩ hut]
      exact h.threads u
  · intro a u hu
    have hut : u ≠ s.threadCount := fun hut => h.not_ring hw a (hut ▸ hu)
    rw [show _ = _ from setThread_of_ne s ⟨none, [.user]⟩ hut]
    exact h.ring a u hu
  · intro u hu
    have hut : u ≠ s.threadCount := Nat.ne_of_gt hu
    rw [show _ = _ from setThread_of_ne s ⟨none, [.user]⟩ hut]
    exact h.absent u (Nat.le_of_succ_le hu)

theorem withActorReleased_ok {x : Thread} {own l} (htodo : x.todo = .user :: l)
    (hagree : x.actor = own) (hfits : Fits x.actor own x.todo) (hl : ∀ i ∈ l, i.waitsFor = none)
    (thunk) : (x.withActorReleased thunk).Ok own := by
  have hall : ∀ i ∈ x.todo, i.waitsFor = none := by
    rw [htodo]
    exact List.forall_mem_cons.mpr ⟨rfl, hl⟩
  obtain ⟨actor, todo⟩ := x
  cases actor with
  | none =>
    refine ⟨.inl ?_, hall⟩
    cases thunk with
    | user => exact ⟨hagree, hfits⟩
    | pause => exact ⟨hagree, hfits⟩
    | acquire b => exact ⟨rfl, hagree.symm, hfits⟩
  | some a => exact ⟨.inl ⟨rfl, hagree.symm, hfits⟩, hall⟩

theorem step_inv {a} (h : Inv s) (hc : s.Undisturbed a) (hs : s.step a = some s') : Inv s' := by
  cases a with simp only [step] at hs
  | spawn t =>
    split at hs
    · cases hs
      exact h.spawn
    · cases hs
  | call t b =>
    split at hs
    case isTrue hu =>
      cases hs
      refine h.userCode hu ?_
      intro own l htodo hagree hfits hl
      unfold Thread.actorCall
      split
      · refine ⟨.inl ⟨hagree, hfits⟩, ?_⟩
        rw [List.tail_cons, htodo]
        exact List.forall_mem_cons.mpr ⟨rfl, hl⟩
      · exact withActorReleased_ok htodo hagree hfits hl _
    case isFalse => cases hs
  | suspend t =>
    split at hs
    case isTrue hu =>
      cases hs
      exact h.userCode hu fun own l htodo hagree hfits hl =>
        withActorReleased_ok htodo hagree hfits hl _
    case isFalse => cases hs
  | «return» t =>
    split at hs
    case isTrue hu =>
      cases hs
      refine h.userCode hu ?_
      intro own l htodo hagree hfits hl
      rw [htodo] at hfits ⊢
      exact ⟨.inl hfits.2, fun i hi => hl i (List.mem_of_mem_tail hi)⟩
    case isFalse => cases hs
  | escape t depth =>
    split at hs
    case isTrue hu =>
      cases hs
      refine h.userCode hu.1 ?_
      intro own l htodo hagree hfits hl
      have hall : ∀ i ∈ (s.threads t).todo, i.waitsFor = none := by
        rw [htodo]
        exact List.forall_mem_cons.mpr ⟨rfl, hl⟩
      refine ⟨.inl (Fits.unwind ?_ fun i hi => hall i (List.mem_of_mem_take hi)), ?_⟩
      · rw [List.take_append_drop]
        exact hfits
      · intro i hi
        have hi := List.mem_of_mem_tail hi
        rw [List.mem_append] at hi
        obtain hi | hi := hi
        · exact hall i (List.mem_of_mem_take (List.mem_of_mem_filter hi))
        · exact hall i (List.mem_of_mem_drop hi)
    case isFalse => cases hs
  | event t =>
    split at hs
    case isTrue hne =>
      cases hs
      obtain ⟨i, l, htodo⟩ := List.exists_cons_of_ne_nil hne
      have hi : i.Window = false := hc i (by rw [htodo]; rfl)
      have hw : waitsFor (s.threads t).todo = none := by
        rw [htodo]
        cases i <;> first | rfl | cases hi
      obtain ⟨own, hown, hfits, hsettled⟩ := h.fits hw
      have hagree : (s.threads t).actor = own := by
        rw [htodo] at hfits
        exact hfits.agree hi
      refine h.setThread (h.lt_threadCount hne) (h.not_ring hw)
        ⟨own, hown, .inl ⟨hagree, hfits⟩, ?_⟩
      rw [htodo] at hw hsettled ⊢
      exact List.forall_mem_cons.mpr ⟨hw, hsettled⟩
    case isFalse => cases hs
  | advance t => exact h.advance hs

theorem initial_inv : Inv initial := by
  have hrest : ∀ t, t ≠ 0 → initial.threads t = ⟨none, []⟩ := by
    intro t ht
    simp [initial, ht]
  refine ⟨?_, nofun, fun _ => List.nodup_nil, fun t ht => hrest t (Nat.ne_of_gt ht)⟩
  intro t
  refine ⟨none, fun a => iff_of_false nofun nofun, ?_⟩
  by_cases ht : t = 0
  · subst ht
    exact ⟨.inl ⟨rfl, rfl, rfl⟩, nofun⟩
  · rw [hrest t ht]
    exact ⟨.inl ⟨rfl, rfl⟩, nofun⟩

/-! ## Isolation -/

structure Isolated (s : World) : Prop where
  /-- User code with a current actor owns the actor's mutex, -/
  owns : ∀ t a, s.UserCode t → (s.threads t).actor = some a → (s.mutexes a).owner = some t
  /-- so it is the only user code isolated to that actor, -/
  alone : ∀ t u a, s.UserCode t → s.UserCode u → (s.threads t).actor = some a →
    (s.threads u).actor = some a → t = u
  /-- and it owns no other actor's mutex. -/
  only : ∀ t a, s.UserCode t → (s.mutexes a).owner = some t → (s.threads t).actor = some a
  /-- No thread ever owns two. -/
  atMostOne : ∀ t a b, (s.mutexes a).owner = some t → (s.mutexes b).owner = some t → a = b

theorem Inv.isolated (h : Inv s) : Isolated s := by
  have hagree : ∀ t, s.UserCode t → ∀ a, (s.mutexes a).owner = some t ↔
      (s.threads t).actor = some a := by
    intro t hu
    have hw : waitsFor (s.threads t).todo = none := by
      rw [waitsFor, hu]
      rfl
    obtain ⟨own, hown, hfits, -⟩ := h.fits hw
    obtain ⟨l, htodo⟩ : ∃ l, (s.threads t).todo = .user :: l := List.head?_eq_some_iff.mp hu
    rw [htodo] at hfits
    rw [hfits.1]
    exact hown
  refine ⟨fun t a hu ha => (hagree t hu a).mpr ha, ?_, fun t a hu ho => (hagree t hu a).mp ho, ?_⟩
  · intro t u a ht hu hta hua
    have hto := (hagree t ht a).mpr hta
    rw [(hagree u hu a).mpr hua] at hto
    exact (Option.some.inj hto).symm
  · intro t a b ha hb
    obtain ⟨own, hown, -⟩ := h.threads t
    have hab := ((hown a).mp ha).symm.trans ((hown b).mp hb)
    exact Option.some.inj hab

/-- The thread is about to lock a mutex it owns or to unlock one it does not own,
which signals an error. -/
def LockError (s : World) (t : ThreadId) : Prop :=
  match (s.threads t).todo with
  | .acquire a :: _ | .relock a :: _ => (s.mutexes a).owner = some t
  | .release a _ :: _ | .unlock a :: _ => (s.mutexes a).owner ≠ some t
  | _ => False

theorem Inv.no_lockError (h : Inv s) (t) : ¬ s.LockError t := by
  unfold LockError
  cases htodo : (s.threads t).todo with
  | nil => exact id
  | cons i l =>
    by_cases hi : i.waitsFor = none
    · obtain ⟨own, hown, hfits, -⟩ := h.fits (t := t) (by rw [htodo]; exact hi)
      rw [htodo] at hfits
      cases i with
      | acquire a =>
        intro ho
        cases hfits.2.1.symm.trans ((hown a).mp ho)
      | relock a =>
        intro ho
        cases hfits.1.symm.trans ((hown a).mp ho)
      | release a thunk => exact fun ho => ho ((hown a).mpr hfits.2.1)
      | unlock a => exact fun ho => ho ((hown a).mpr hfits.1)
      | _ => exact id
    · cases i <;> first | exact id | exact absurd rfl hi

/-- **Actor isolation**: in every run in which no thread event starts while its
thread is between a lock or an unlock of an actor's mutex and the change of the
current actor that goes with it. No lock or unlock signals an error there. -/
theorem actor_isolation (actions : List Action) {s : World}
    (hr : run step initial actions = some s) (hu : Along step Undisturbed initial actions) :
    Isolated s ∧ ∀ t, ¬ s.LockError t := by
  have h : Inv s := run_invariant step_inv initial_inv hu hr
  exact ⟨h.isolated, h.no_lockError⟩

/-- A suspension point, another call of the actor in between, and events of both
threads. -/
theorem actor_isolation_two_threads :
    ∃ s, run step initial [.spawn 0, .call 0 7, .advance 0, .advance 0, .call 1 7, .advance 1,
        .event 0, .return 0, .suspend 0, .advance 0, .advance 1, .advance 0, .event 0,
        .advance 1] = some s ∧
      s.UserCode 0 ∧ s.UserCode 1 ∧ (s.threads 1).actor = some 7 ∧
      Isolated s ∧ ∀ t, ¬ s.LockError t := by
  refine ⟨_, rfl, rfl, rfl, rfl, ?_⟩
  exact actor_isolation [.spawn 0, .call 0 7, .advance 0, .advance 0, .call 1 7, .advance 1,
    .event 0, .return 0, .suspend 0, .advance 0, .advance 1, .advance 0, .event 0,
    .advance 1] rfl (by decide)

/-- An event runs after a suspension point has unlocked the actor and before it
has reset the current actor, while another thread has entered the actor: both
run code isolated to it. -/
theorem actor_event_in_window :
    ∃ s, run step initial [.spawn 0, .call 0 7, .advance 0, .advance 0, .suspend 0, .advance 0,
        .call 1 7, .advance 1, .advance 1, .event 0] = some s ∧
      s.UserCode 0 ∧ s.UserCode 1 ∧ (s.threads 0).actor = some 7 ∧ (s.threads 1).actor = some 7 ∧
      (s.mutexes 7).owner = some 1 ∧ ¬ Isolated s := by
  refine ⟨_, rfl, rfl, rfl, rfl, rfl, rfl, ?_⟩
  intro h
  exact absurd (h.alone 0 1 7 rfl rfl rfl rfl) (by decide)

end World

end MitScheme.Runtime.Actor
