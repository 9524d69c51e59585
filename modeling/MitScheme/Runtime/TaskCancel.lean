import MitScheme.Runtime.TaskGroup

/-! # Cancellation

`cancel-task!` over a tree of structured tasks. Any number of calls run at once;
each walks the children it found when it set the flag, after the handlers it
found, whose code may call `cancel-task!` again. -/

namespace MitScheme.Runtime.TaskCancel
open Lib.Machine Function

abbrev TaskId := Nat
abbrev HandlerId := Nat

/-- A thread that calls `cancel-task!`. -/
abbrev CallerId := Nat

/-! ## Data -/

/-- What a call of `cancel-task!` that has set the flag still has to do. -/
structure Work where
  handlers : List HandlerId
  /-- A handler is running. -/
  inHandler : Bool
  children : List TaskId

/-- A task. Only one call finds its flag clear, so that its work is kept here. -/
structure Task where
  parent : Option TaskId
  done : Bool
  cancelled : Bool
  cancelHandlers : List HandlerId
  children : List TaskId
  work : Option Work

def newTask (parent : Option TaskId) (cancelled : Bool) : Task :=
  ⟨parent, false, cancelled, [], [], none⟩

/-- The flag is set, and the call takes the handlers and the children. -/
def Task.cancel (x : Task) : Task :=
  { x with
    cancelled := true
    cancelHandlers := []
    work := some ⟨x.cancelHandlers, false, x.children⟩ }

/-- The tasks, and for each caller the tasks of its calls in progress, innermost
first. The last three fields are a history of the handlers: how many were
installed, for which task, and how often each has run. -/
structure World where
  tasks : TaskId → Task
  taskCount : Nat
  calls : CallerId → List TaskId
  handlerCount : Nat
  handlerTask : HandlerId → TaskId
  handlerRuns : HandlerId → Nat

namespace World

def setTask (s : World) (t : TaskId) (x : Task) : World :=
  { s with tasks := update s.tasks t x }

def setCalls (s : World) (k : CallerId) (calls : List TaskId) : World :=
  { s with calls := update s.calls k calls }

def runHandler (s : World) (h : HandlerId) : World :=
  { s with handlerRuns := update s.handlerRuns h (s.handlerRuns h + 1) }

/-! ## Operations -/

/-- `%spawn`, before the thread of the child is made. `%add-child!` refuses a
child of a cancelled parent, which then starts out cancelled. -/
def spawn (s : World) (parent : Option TaskId) : World :=
  let s' := { s with taskCount := s.taskCount + 1 }
  match parent with
  | none => s'.setTask s.taskCount (newTask none false)
  | some p =>
    if (s.tasks p).cancelled then s'.setTask s.taskCount (newTask parent true)
    else
      (s'.setTask s.taskCount (newTask parent false)).setTask p
        { s.tasks p with children := s.taskCount :: (s.tasks p).children }

/-- The first section of `%finish-task!`. -/
def finishTask (s : World) (t : TaskId) : World :=
  s.setTask t { s.tasks t with done := true, cancelHandlers := [] }

def removeChild (s : World) (parent child : TaskId) : World :=
  s.setTask parent { s.tasks parent with
    children := (s.tasks parent).children.filter (· ≠ child) }

/-- The start of `with-task-cancellation-handler`. -/
def installHandler (s : World) (t : TaskId) : World :=
  let h := s.handlerCount
  let s' := { s with
    handlerCount := h + 1
    handlerTask := update s.handlerTask h t }
  if (s.tasks t).cancelled then s'.runHandler h
  else s'.setTask t { s.tasks t with cancelHandlers := h :: (s.tasks t).cancelHandlers }

/-- The end of `with-task-cancellation-handler`. -/
def removeHandler (s : World) (t : TaskId) (h : HandlerId) : World :=
  s.setTask t { s.tasks t with cancelHandlers := (s.tasks t).cancelHandlers.filter (· ≠ h) }

/-- The section of `cancel-task!` that runs with the mutex of the task locked. -/
def cancelTask (s : World) (k : CallerId) (t : TaskId) : World :=
  if (s.tasks t).cancelled then s
  else (s.setTask t (s.tasks t).cancel).setCalls k (t :: s.calls k)

def setWork (s : World) (t : TaskId) (work : Option Work) : World :=
  s.setTask t { s.tasks t with work }

/-- The innermost call of the caller goes on: the next handler, the next child,
or the return. -/
def advance (s : World) (k : CallerId) : Option World :=
  match s.calls k with
  | [] => none
  | t :: calls =>
    match (s.tasks t).work with
    | none => none
    | some ⟨_, true, _⟩ => none
    | some ⟨h :: handlers, false, children⟩ =>
      some ((s.setWork t (some ⟨handlers, true, children⟩)).runHandler h)
    | some ⟨[], false, c :: children⟩ =>
      some ((s.setWork t (some ⟨[], false, children⟩)).cancelTask k c)
    | some ⟨[], false, []⟩ => some ((s.setWork t none).setCalls k calls)

/-- The caller is in code of the user: it is not in a call, or in a handler. -/
def InUserCode (s : World) (k : CallerId) : Prop :=
  ∀ t ∈ (s.calls k).head?, ∀ w ∈ (s.tasks t).work, w.inHandler = true

instance (s : World) (k : CallerId) : Decidable (s.InUserCode k) := by
  unfold InUserCode
  infer_instance

def handlerReturn (s : World) (k : CallerId) : Option World :=
  match s.calls k with
  | [] => none
  | t :: _ =>
    match (s.tasks t).work with
    | some ⟨handlers, true, children⟩ => some (s.setWork t (some ⟨handlers, false, children⟩))
    | _ => none

def dropCalls (s : World) (k : CallerId) : Nat → World
  | 0 => s
  | n + 1 =>
    match s.calls k with
    | [] => s
    | t :: calls => ((s.setWork t none).setCalls k calls).dropCalls k n

end World

/-! ## Steps -/

inductive Action
  /-- A task is made, as a child through a task group or an `async-let`, or as an
  unstructured one. -/
  | spawn (parent : Option TaskId)
  | finish (t : TaskId)
  | removeChild (t : TaskId)
  | installHandler (t : TaskId)
  | removeHandler (t : TaskId) (h : HandlerId)
  | cancel (k : CallerId) (t : TaskId)
  | advance (k : CallerId)
  | handlerReturn (k : CallerId)
  /-- A handler leaves that many calls by a non-local exit. -/
  | handlerEscape (k : CallerId) (calls : Nat)

namespace World

/-- A thunk ends after its structured scopes, and a scope after its children. -/
def MayFinish (s : World) (t : TaskId) : Prop :=
  t < s.taskCount ∧ (s.tasks t).done = false ∧
    ∀ c < s.taskCount, (s.tasks c).parent = some t → (s.tasks c).done = true

instance (s : World) (t : TaskId) : Decidable (s.MayFinish t) := by
  unfold MayFinish
  infer_instance

/-- The tasks of a world of task groups; a child of a group is one of its owner. -/
def ofGroups (s : TaskGroup.World) : World where
  tasks t := { newTask ((s.tasks t).group.map fun g => (s.groups g).owner)
    (s.tasks t).cancelled with done := (s.tasks t).state ≠ .running }
  taskCount := s.taskCount
  calls := fun _ => []
  handlerCount := 0
  handlerTask := fun _ => 0
  handlerRuns := fun _ => 0

/-- The guard of `finish` is what `with-task-group` sees to: it holds of a task
whose groups have all been left as their bodies ended. -/
theorem mayFinish_of_left {actions s t}
    (hc : Along TaskGroup.World.step TaskGroup.World.FirstHook .initial actions)
    (hr : run TaskGroup.World.step .initial actions = some s) (ht : t < s.taskCount)
    (hrunning : (s.tasks t).state = .running)
    (hleft : ∀ g, (s.groups g).owner = t → ∃ outcome, (s.groups g).scope = .left outcome) :
    (ofGroups s).MayFinish t := by
  refine ⟨ht, by simp [ofGroups, hrunning], ?_⟩
  intro c _ hparent
  obtain ⟨g, hg, howner⟩ := Option.map_eq_some_iff.mp hparent
  obtain ⟨outcome, hscope⟩ := hleft g howner
  have hsound := (run_invariant TaskGroup.World.step_inv TaskGroup.World.initial_inv hc hr).sound g
  obtain hdone | hdone := hsound.left outcome hscope c hg <;> simp [ofGroups, hdone]

def Live (s : World) (t : TaskId) : Prop := t < s.taskCount ∧ (s.tasks t).done = false

instance (s : World) (t : TaskId) : Decidable (s.Live t) := by
  unfold Live
  infer_instance

def step (s : World) : Action → Option World
  | .spawn none => some (s.spawn none)
  | .spawn (some p) => if s.Live p then some (s.spawn (some p)) else none
  | .finish t => if s.MayFinish t then some (s.finishTask t) else none
  | .removeChild t =>
    match (s.tasks t).parent with
    | some p => if (s.tasks t).done then some (s.removeChild p t) else none
    | none => none
  | .installHandler t => if s.Live t then some (s.installHandler t) else none
  | .removeHandler t h => some (s.removeHandler t h)
  | .cancel k t =>
    if t < s.taskCount ∧ s.InUserCode k then some (s.cancelTask k t) else none
  | .advance k => s.advance k
  | .handlerReturn k => s.handlerReturn k
  | .handlerEscape k n =>
    if s.InUserCode k ∧ (s.dropCalls k n).InUserCode k then some (s.dropCalls k n) else none

def initial : World where
  tasks := fun _ => { newTask none false with done := true }
  taskCount := 0
  calls := fun _ => []
  handlerCount := 0
  handlerTask := fun _ => 0
  handlerRuns := fun _ => 0

/-! ## Descendants -/

/-- The task is a structured descendant of `r`, or `r` itself. -/
inductive Under (s : World) (r : TaskId) : TaskId → Prop
  | self : Under s r r
  | child {p c : TaskId} (below : Under s r p) (parent : (s.tasks c).parent = some p) :
    Under s r c

/-- A call of `cancel-task!` still has to visit a child that the task is under. -/
def ToBeVisited (s : World) (r d : TaskId) : Prop :=
  ∃ p w c, Under s r p ∧ (s.tasks p).work = some w ∧ c ∈ w.children ∧ Under s c d

/-! ## The invariant of the tree -/

structure Inv (s : World) : Prop where
  known : ∀ c p, (s.tasks c).parent = some p → c < s.taskCount ∧ p < s.taskCount
  /-- A child that has not finished is in the list of its parent, or cancelled. -/
  listed : ∀ c p, (s.tasks c).parent = some p → (s.tasks c).done = false →
    c ∈ (s.tasks p).children ∨ (s.tasks c).cancelled = true
  /-- When its parent is cancelled, it is cancelled or will be visited. -/
  reached : ∀ c p, (s.tasks c).parent = some p → (s.tasks c).done = false →
    (s.tasks p).cancelled = true →
    (s.tasks c).cancelled = true ∨ ∃ w, (s.tasks p).work = some w ∧ c ∈ w.children
  nested : ∀ c p, (s.tasks c).parent = some p → (s.tasks p).done = true →
    (s.tasks c).done = true
  flagged : ∀ t w, (s.tasks t).work = some w → (s.tasks t).cancelled = true

variable {s s' : World} {t : TaskId} {k : CallerId}

theorem setTask_apply (s : World) (t x u) :
    (s.setTask t x).tasks u = if u = t then x else s.tasks u := by
  simp [setTask, update_apply]

theorem Inv.setTask (h : Inv s) {x} (hparent : x.parent = (s.tasks t).parent)
    (hdone : x.done = (s.tasks t).done)
    (hcancelled : (s.tasks t).cancelled = true → x.cancelled = true)
    (hchildren : ∀ c, (s.tasks c).parent = some t → (s.tasks c).done = false →
      c ∈ (s.tasks t).children → c ∈ x.children)
    (hreached : ∀ c, (s.tasks c).parent = some t → (s.tasks c).done = false →
      x.cancelled = true → (s.tasks c).cancelled = true ∨ ∃ w, x.work = some w ∧ c ∈ w.children)
    (hflagged : ∀ w, x.work = some w → x.cancelled = true) : Inv (s.setTask t x) := by
  have hp : ∀ u, ((s.setTask t x).tasks u).parent = (s.tasks u).parent := by
    intro u
    rw [setTask_apply]
    split
    case isTrue hut => rw [hut, hparent]
    case isFalse => rfl
  have hd : ∀ u, ((s.setTask t x).tasks u).done = (s.tasks u).done := by
    intro u
    rw [setTask_apply]
    split
    case isTrue hut => rw [hut, hdone]
    case isFalse => rfl
  have hc : ∀ u, (s.tasks u).cancelled = true → ((s.setTask t x).tasks u).cancelled = true := by
    intro u hu
    rw [setTask_apply]
    split
    case isTrue hut =>
      rw [hut] at hu
      exact hcancelled hu
    case isFalse => exact hu
  refine ⟨?_, ?_, ?_, ?_, ?_⟩
  · intro c p
    rw [hp]
    exact h.known c p
  · intro c p hcp hcd
    rw [hp] at hcp
    rw [hd] at hcd
    obtain hm | hm := h.listed c p hcp hcd
    · left
      rw [setTask_apply]
      split
      case isTrue hpt =>
        rw [hpt] at hm hcp
        exact hchildren c hcp hcd hm
      case isFalse => exact hm
    · exact .inr (hc c hm)
  · intro c p hcp hcd hpc
    rw [hp] at hcp
    rw [hd] at hcd
    rw [setTask_apply] at hpc
    have hold : (s.tasks c).cancelled = true ∨
        ∃ w, ((s.setTask t x).tasks p).work = some w ∧ c ∈ w.children := by
      rw [setTask_apply]
      split at hpc
      case isTrue hpt =>
        rw [if_pos hpt]
        rw [hpt] at hcp
        exact hreached c hcp hcd hpc
      case isFalse hpt =>
        rw [if_neg hpt]
        exact h.reached c p hcp hcd hpc
    exact hold.imp_left (hc c)
  · intro c p hcp hpd
    rw [hp] at hcp
    rw [hd] at hpd ⊢
    exact h.nested c p hcp hpd
  · intro u w
    rw [setTask_apply]
    split
    · exact hflagged w
    · exact h.flagged u w

theorem Inv.congr (h : Inv s) (ht : s'.tasks = s.tasks) (hn : s'.taskCount = s.taskCount) :
    Inv s' := by
  obtain ⟨h1, h2, h3, h4, h5⟩ := h
  exact ⟨by rwa [ht, hn], by rwa [ht], by rwa [ht], by rwa [ht], by rwa [ht]⟩

theorem cancelTask_of_cancelled (k) (h : (s.tasks t).cancelled = true) : s.cancelTask k t = s := by
  rw [World.cancelTask, if_pos h]

theorem cancelTask_tasks (k) (h : (s.tasks t).cancelled = false) :
    (s.cancelTask k t).tasks = update s.tasks t (s.tasks t).cancel := by
  rw [World.cancelTask, if_neg (by rw [h]; nofun)]
  rfl

theorem cancelTask_taskCount (s : World) (k t) : (s.cancelTask k t).taskCount = s.taskCount := by
  unfold World.cancelTask
  split <;> rfl

section
variable (h : Inv s)
include h

theorem Inv.cancelTask (k t) : Inv (s.cancelTask k t) := by
  cases hc : (s.tasks t).cancelled with
  | true =>
    rw [cancelTask_of_cancelled k hc]
    exact h
  | false =>
    refine Inv.congr (s := s.setTask t (s.tasks t).cancel) ?_ (cancelTask_tasks k hc)
      (cancelTask_taskCount s k t)
    refine h.setTask rfl rfl (fun _ => rfl) (fun _ _ _ hm => hm) ?_ (fun _ _ => rfl)
    intro c hct hcd _
    refine (h.listed c t hct hcd).symm.imp_right ?_
    intro hm
    exact ⟨_, rfl, hm⟩

theorem Inv.setWork {w} (hold : (s.tasks t).work = some w) {work}
    (hw : ∀ c ∈ w.children, (s.tasks c).cancelled = false →
      ∃ w', work = some w' ∧ c ∈ w'.children) : Inv (s.setWork t work) := by
  refine h.setTask rfl rfl id (fun _ _ _ hm => hm) ?_ fun _ _ => h.flagged t w hold
  intro c hct hcd hcancelled
  cases hc : (s.tasks c).cancelled with
  | true => exact .inl rfl
  | false =>
    obtain hm | ⟨w', hw', hm⟩ := h.reached c t hct hcd hcancelled
    · rw [hc] at hm
      cases hm
    · rw [hold] at hw'
      cases hw'
      exact .inr (hw c hm hc)

theorem Inv.visit {c children} (hold : (s.tasks t).work = some ⟨[], false, c :: children⟩) :
    Inv ((s.setWork t (some ⟨[], false, children⟩)).cancelTask k c) := by
  have hrest : ∀ s1 : World, Inv s1 → (s1.tasks t).work = some ⟨[], false, c :: children⟩ →
      (s1.tasks c).cancelled = true → Inv (s1.setWork t (some ⟨[], false, children⟩)) := by
    intro s1 h1 hw1 hc1
    refine h1.setWork hw1 ?_
    intro d hd hdc
    refine ⟨_, rfl, (List.mem_cons.mp hd).resolve_left ?_⟩
    intro heq
    rw [heq, hc1] at hdc
    cases hdc
  generalize hs1 : s.setWork t (some ⟨[], false, children⟩) = s1
  have htasks : s1.tasks = update s.tasks t { s.tasks t with
      work := some ⟨[], false, children⟩ } := by
    rw [← hs1]
    rfl
  have hcount : s1.taskCount = s.taskCount := by
    rw [← hs1]
    rfl
  cases hc : (s.tasks c).cancelled with
  | true =>
    have hc1 : (s1.tasks c).cancelled = true := by
      rw [← hs1, World.setWork, setTask_apply]
      split
      case isTrue hct =>
        rw [hct] at hc
        exact hc
      case isFalse => exact hc
    rw [cancelTask_of_cancelled k hc1, ← hs1]
    exact hrest s h hold hc
  | false =>
    -- The child is not `t`, which is cancelled, so that the two updates commute.
    have hct : c ≠ t := by
      intro hct
      rw [hct, h.flagged t _ hold] at hc
      cases hc
    have hc1 : s1.tasks c = s.tasks c := by
      rw [htasks]
      exact update_of_ne hct _ _
    have ht : (s.cancelTask k c).tasks t = s.tasks t := by
      rw [cancelTask_tasks k hc]
      exact update_of_ne (Ne.symm hct) _ _
    have hnew := hrest (s.cancelTask k c) (h.cancelTask k c) (by rw [ht]; exact hold)
      (by rw [cancelTask_tasks k hc, update_self]; rfl)
    refine hnew.congr ?_ ?_
    · rw [cancelTask_tasks k (by rw [hc1]; exact hc), hc1, htasks, update_comm hct.symm]
      rw [World.setWork, World.setTask, ht, cancelTask_tasks k hc]
    · rw [cancelTask_taskCount, hcount]
      exact (cancelTask_taskCount s k c).symm

theorem Inv.advance (hs : s.advance k = some s') : Inv s' := by
  unfold World.advance at hs
  split at hs
  · cases hs
  case h_2 t calls hcalls =>
    split at hs
    · cases hs
    · cases hs
    case h_3 handler handlers children hw =>
      cases hs
      refine Inv.congr (h.setWork hw ?_) rfl rfl
      exact fun c hc _ => ⟨_, rfl, hc⟩
    case h_4 c children hw =>
      cases hs
      exact h.visit hw
    case h_5 hw =>
      cases hs
      refine Inv.congr (h.setWork hw ?_) rfl rfl
      intro c hc
      cases hc

theorem Inv.handlerReturn (hs : s.handlerReturn k = some s') : Inv s' := by
  unfold World.handlerReturn at hs
  split at hs
  · cases hs
  · split at hs
    case h_1 handlers children hw =>
      cases hs
      exact h.setWork hw fun c hc _ => ⟨_, rfl, hc⟩
    case h_2 => cases hs

theorem Inv.finishTask (hf : s.MayFinish t) : Inv (s.finishTask t) := by
  have hp : ∀ u, ((s.finishTask t).tasks u).parent = (s.tasks u).parent := by
    intro u
    rw [World.finishTask, setTask_apply]
    split
    case isTrue hut => rw [hut]
    case isFalse => rfl
  have hd : ∀ u, ((s.finishTask t).tasks u).done = false → (s.tasks u).done = false := by
    intro u
    rw [World.finishTask, setTask_apply]
    split
    · nofun
    · exact id
  have hrest : ∀ u, ((s.finishTask t).tasks u).children = (s.tasks u).children ∧
      ((s.finishTask t).tasks u).cancelled = (s.tasks u).cancelled ∧
      ((s.finishTask t).tasks u).work = (s.tasks u).work := by
    intro u
    rw [World.finishTask, setTask_apply]
    split
    case isTrue hut =>
      rw [hut]
      exact ⟨rfl, rfl, rfl⟩
    case isFalse => exact ⟨rfl, rfl, rfl⟩
  refine ⟨?_, ?_, ?_, ?_, ?_⟩
  · intro c p
    rw [hp]
    exact h.known c p
  · intro c p hcp hcd
    rw [hp] at hcp
    rw [(hrest p).1, (hrest c).2.1]
    exact h.listed c p hcp (hd c hcd)
  · intro c p hcp hcd
    rw [hp] at hcp
    rw [(hrest p).2.1, (hrest c).2.1, (hrest p).2.2]
    exact h.reached c p hcp (hd c hcd)
  · intro c p hcp hpd
    rw [hp] at hcp
    rw [World.finishTask, setTask_apply] at hpd ⊢
    split
    · rfl
    · split at hpd
      case isTrue hpt =>
        rw [hpt] at hcp
        exact hf.2.2 c (h.known c t hcp).1 hcp
      case isFalse => exact h.nested c p hcp hpd
  · intro u w
    rw [(hrest u).2.1, (hrest u).2.2]
    exact h.flagged u w

theorem Inv.removeChild {p} (hd : (s.tasks t).done = true) : Inv (s.removeChild p t) := by
  refine h.setTask rfl rfl id ?_ (fun c hcp hcd hpc => h.reached c p hcp hcd hpc)
    (h.flagged p)
  intro c _ hcd hm
  refine List.mem_filter.mpr ⟨hm, ?_⟩
  have hct : c ≠ t := by
    intro hct
    rw [hct, hd] at hcd
    cases hcd
  simpa using hct

theorem Inv.setHandlers (t) (handlers : List HandlerId) :
    Inv (s.setTask t { s.tasks t with cancelHandlers := handlers }) :=
  h.setTask rfl rfl id (fun _ _ _ hm => hm) (fun c hct hcd htc => h.reached c t hct hcd htc)
    (h.flagged t)

theorem Inv.installHandler (t) : Inv (s.installHandler t) := by
  unfold World.installHandler
  dsimp only
  split
  · exact h.congr rfl rfl
  · exact (h.setHandlers t (s.handlerCount :: (s.tasks t).cancelHandlers)).congr rfl rfl

theorem Inv.newTask (parent cancelled) (hparent : ∀ p, parent = some p → s.Live p ∧
      (cancelled = true ∨ s.taskCount ∈ (s.tasks p).children ∧ (s.tasks p).cancelled = false)) :
    Inv (World.setTask { s with taskCount := s.taskCount + 1 } s.taskCount
      (TaskCancel.newTask parent cancelled)) := by
  generalize hs' : World.setTask { s with taskCount := s.taskCount + 1 } s.taskCount
    (TaskCancel.newTask parent cancelled) = s'
  have hself : s'.tasks s.taskCount = TaskCancel.newTask parent cancelled := by
    rw [← hs', setTask_apply, if_pos rfl]
  have hother : ∀ u, u < s.taskCount → s'.tasks u = s.tasks u := by
    intro u hu
    rw [← hs', setTask_apply, if_neg (Nat.ne_of_lt hu)]
  have hcount : s'.taskCount = s.taskCount + 1 := by
    rw [← hs']
    rfl
  -- A child is the new task, or an old one of an old parent.
  have hchild : ∀ c p, (s'.tasks c).parent = some p →
      p < s.taskCount ∧ s'.tasks p = s.tasks p ∧
        (c = s.taskCount ∧ parent = some p ∨
          c < s.taskCount ∧ s'.tasks c = s.tasks c ∧ (s.tasks c).parent = some p) := by
    intro c p hcp
    by_cases hc : c = s.taskCount
    · subst hc
      rw [hself] at hcp
      have hp := (hparent p hcp).1.1
      exact ⟨hp, hother p hp, .inl ⟨rfl, hcp⟩⟩
    · have hsame : s'.tasks c = s.tasks c := by
        rw [← hs', setTask_apply, if_neg hc]
      rw [hsame] at hcp
      obtain ⟨hcn, hpn⟩ := h.known c p hcp
      exact ⟨hpn, hother p hpn, .inr ⟨hcn, hsame, hcp⟩⟩
  refine ⟨?_, ?_, ?_, ?_, ?_⟩
  · intro c p hcp
    rw [hcount]
    obtain ⟨hp, -, ⟨rfl, -⟩ | ⟨hc, -, -⟩⟩ := hchild c p hcp
    · exact ⟨Nat.lt_succ_self _, Nat.lt_succ_of_lt hp⟩
    · exact ⟨Nat.lt_succ_of_lt hc, Nat.lt_succ_of_lt hp⟩
  · intro c p hcp hcd
    obtain ⟨-, hp, ⟨rfl, hnew⟩ | ⟨-, hc, hold⟩⟩ := hchild c p hcp
    · rw [hp, hself]
      exact (hparent p hnew).2.symm.imp_left And.left
    · rw [hc] at hcd
      rw [hp, hc]
      exact h.listed c p hold hcd
  · intro c p hcp hcd hpc
    obtain ⟨-, hp, ⟨rfl, hnew⟩ | ⟨-, hc, hold⟩⟩ := hchild c p hcp
    · rw [hp] at hpc
      rw [hself]
      refine .inl ((hparent p hnew).2.resolve_right ?_)
      intro hclear
      rw [hclear.2] at hpc
      cases hpc
    · rw [hc] at hcd
      rw [hp] at hpc
      rw [hp, hc]
      exact h.reached c p hold hcd hpc
  · intro c p hcp hpd
    obtain ⟨-, hp, ⟨rfl, hnew⟩ | ⟨-, hc, hold⟩⟩ := hchild c p hcp
    · rw [hp, (hparent p hnew).1.2] at hpd
      cases hpd
    · rw [hp] at hpd
      rw [hc]
      exact h.nested c p hold hpd
  · intro u w hw
    by_cases hu : u = s.taskCount
    · subst hu
      rw [hself] at hw
      cases hw
    · have hsame : s'.tasks u = s.tasks u := by
        rw [← hs', setTask_apply, if_neg hu]
      rw [hsame] at hw ⊢
      exact h.flagged u w hw

theorem Inv.spawn {parent} (hlive : ∀ p, parent = some p → s.Live p) : Inv (s.spawn parent) := by
  unfold World.spawn
  dsimp only
  cases parent with
  | none => exact h.newTask none false nofun
  | some p =>
    have hp := hlive p rfl
    dsimp only
    split
    case isTrue =>
      refine h.newTask (some p) true ?_
      intro q hq
      cases hq
      exact ⟨hp, .inl rfl⟩
    case isFalse hclear =>
      -- First the list of the parent, then the child.
      have hlist : Inv (s.setTask p { s.tasks p with
          children := s.taskCount :: (s.tasks p).children }) :=
        h.setTask rfl rfl id (fun _ _ _ hm => List.mem_cons_of_mem _ hm)
          (fun c hct hcd htc => h.reached c p hct hcd htc) (h.flagged p)
      have hnew := hlist.newTask (some p) false ?_
      · refine hnew.congr ?_ rfl
        have hne : p ≠ s.taskCount := Nat.ne_of_lt hp.1
        simp only [World.setTask]
        exact update_comm hne.symm _ _ _
      · intro q hq
        cases hq
        refine ⟨⟨hp.1, ?_⟩, .inr ?_⟩
        · rw [setTask_apply, if_pos rfl]
          exact hp.2
        · rw [setTask_apply, if_pos rfl]
          exact ⟨List.mem_cons_self, by simpa using hclear⟩

end

def HandlersReturn (_ : World) : Action → Prop
  | .handlerEscape _ _ => False
  | _ => True

instance (s : World) (a : Action) : Decidable (s.HandlersReturn a) := by
  cases a <;> unfold HandlersReturn <;> infer_instance

theorem step_inv {a} (h : Inv s) (hc : HandlersReturn s a) (hs : s.step a = some s') : Inv s' := by
  cases a with simp only [step] at hs
  | spawn parent =>
    cases parent with
    | none =>
      cases hs
      exact h.spawn nofun
    | some p =>
      dsimp only at hs
      split at hs
      case isTrue hlive =>
        cases hs
        refine h.spawn ?_
        intro q hq
        cases hq
        exact hlive
      case isFalse => cases hs
  | finish t =>
    split at hs
    case isTrue hf =>
      cases hs
      exact h.finishTask hf
    case isFalse => cases hs
  | removeChild t =>
    split at hs
    · split at hs
      case isTrue hd =>
        cases hs
        exact h.removeChild hd
      case isFalse => cases hs
    · cases hs
  | installHandler t =>
    split at hs
    · cases hs
      exact h.installHandler t
    · cases hs
  | removeHandler t handler =>
    cases hs
    exact h.setHandlers t _
  | cancel k t =>
    split at hs
    · cases hs
      exact h.cancelTask k t
    · cases hs
  | advance k => exact h.advance hs
  | handlerReturn k => exact h.handlerReturn hs
  | handlerEscape k n => exact hc.elim

theorem initial_inv : Inv initial := by
  refine ⟨?_, ?_, ?_, ?_, ?_⟩
  · nofun
  · nofun
  · nofun
  · nofun
  · nofun

theorem Inv.descendants (h : Inv s) {r d} (hr : (s.tasks r).cancelled = true) (hd : Under s r d)
    (hrun : (s.tasks d).done = false) : (s.tasks d).cancelled = true ∨ ToBeVisited s r d := by
  induction hd with
  | self => exact .inl hr
  | @child p c hp hparent ih =>
    have hprun : (s.tasks p).done = false := by
      by_contra hdone
      rw [h.nested c p hparent (by simpa using hdone)] at hrun
      cases hrun
    obtain hcancelled | ⟨q, w, e, hq, hw, he, hunder⟩ := ih hprun
    · obtain hm | ⟨w, hw, hm⟩ := h.reached c p hparent hrun hcancelled
      · exact .inl hm
      · exact .inr ⟨p, w, c, hp, hw, hm, .self⟩
    · exact .inr ⟨q, w, e, hq, hw, he, .child hunder hparent⟩

/-! ## The invariant of the handlers -/

/-- A handler that is installed or taken belongs to its task and has not run. -/
def Waits (s : World) (t : TaskId) (handlers : List HandlerId) : Prop :=
  ∀ h ∈ handlers, s.handlerTask h = t ∧ h < s.handlerCount ∧ s.handlerRuns h = 0

structure Once (s : World) : Prop where
  installed : ∀ t, s.Waits t (s.tasks t).cancelHandlers ∧ (s.tasks t).cancelHandlers.Nodup
  taken : ∀ t w, (s.tasks t).work = some w → s.Waits t w.handlers ∧ w.handlers.Nodup ∧
    (s.tasks t).cancelHandlers = [] ∧ (s.tasks t).cancelled = true
  runs : ∀ h, s.handlerRuns h ≤ 1
  fresh : ∀ h, s.handlerCount ≤ h → s.handlerRuns h = 0

theorem Waits.sublist {l l'} (h : s.Waits t l) (hsub : l'.Sublist l) :
    s.Waits t l' := fun handler hm => h handler (hsub.subset hm)

theorem Once.setTask (h : Once s) {x} (hsub : x.cancelHandlers.Sublist (s.tasks t).cancelHandlers)
    (hwork : ∀ w, x.work = some w → x.cancelHandlers = [] ∧ x.cancelled = true ∧
      (w.handlers = (s.tasks t).cancelHandlers ∨
        ∃ w', (s.tasks t).work = some w' ∧ w.handlers.Sublist w'.handlers)) :
    Once (s.setTask t x) := by
  refine ⟨?_, ?_, h.runs, h.fresh⟩
  · intro u
    rw [setTask_apply]
    split
    case isTrue hut =>
      subst hut
      exact ⟨(h.installed u).1.sublist hsub, (h.installed u).2.sublist hsub⟩
    case isFalse => exact h.installed u
  · intro u w
    rw [setTask_apply]
    split
    case isTrue hut =>
      subst hut
      intro hw
      obtain ⟨hnil, hcancelled, hsame | ⟨w', hw', hsub'⟩⟩ := hwork w hw
      · rw [hsame]
        exact ⟨(h.installed u).1, (h.installed u).2, hnil, hcancelled⟩
      · obtain ⟨h1, h2, -, -⟩ := h.taken u w' hw'
        exact ⟨h1.sublist hsub', h2.sublist hsub', hnil, hcancelled⟩
    case isFalse => exact h.taken u w

theorem Once.congr (h : Once s) (ht : s'.tasks = s.tasks) (hc : s'.handlerCount = s.handlerCount)
    (htask : s'.handlerTask = s.handlerTask) (hr : s'.handlerRuns = s.handlerRuns) : Once s' := by
  obtain ⟨h1, h2, h3, h4⟩ := h
  refine ⟨?_, ?_, by rwa [hr], by rwa [hc, hr]⟩
  · unfold Waits
    rwa [ht, hc, htask, hr]
  · unfold Waits
    rwa [ht, hc, htask, hr]

theorem Once.runHandler (h : Once s) {handler} (hnew : handler < s.handlerCount)
    (hzero : s.handlerRuns handler = 0) (hi : ∀ t, handler ∉ (s.tasks t).cancelHandlers)
    (ht : ∀ t w, (s.tasks t).work = some w → handler ∉ w.handlers) :
    Once (s.runHandler handler) := by
  have hwaits : ∀ u l, handler ∉ l → s.Waits u l → (s.runHandler handler).Waits u l := by
    intro u l hnot hl other hm
    obtain ⟨h1, h2, h3⟩ := hl other hm
    have hne : other ≠ handler := fun heq => hnot (heq ▸ hm)
    refine ⟨h1, h2, ?_⟩
    simpa [World.runHandler, hne] using h3
  refine ⟨?_, ?_, ?_, ?_⟩
  · intro u
    exact ⟨hwaits u _ (hi u) (h.installed u).1, (h.installed u).2⟩
  · intro u w hw
    obtain ⟨h1, h2⟩ := h.taken u w hw
    exact ⟨hwaits u _ (ht u w hw) h1, h2⟩
  · intro other
    by_cases hne : other = handler
    · subst hne
      simp [World.runHandler, hzero]
    · simpa [World.runHandler, hne] using h.runs other
  · intro other hle
    have hne : other ≠ handler := Nat.ne_of_gt (Nat.lt_of_lt_of_le hnew hle)
    simpa [World.runHandler, hne] using h.fresh other hle

theorem Once.setWork (h : Once s) {w} (hold : (s.tasks t).work = some w) {work}
    (hw : ∀ w', work = some w' → w'.handlers.Sublist w.handlers) : Once (s.setWork t work) := by
  obtain ⟨-, -, hnil, hcancelled⟩ := h.taken t w hold
  refine h.setTask (List.Sublist.refl _) ?_
  intro w' hw'
  exact ⟨hnil, hcancelled, .inr ⟨w, hold, hw w' hw'⟩⟩

theorem Once.cancelTask (h : Once s) (k t) : Once (s.cancelTask k t) := by
  unfold World.cancelTask
  split
  · exact h
  · refine Once.congr (h.setTask (List.nil_sublist _) ?_) rfl rfl rfl rfl
    intro w hw
    cases hw
    exact ⟨rfl, rfl, .inl rfl⟩

theorem Once.advance (h : Once s) (hs : s.advance k = some s') : Once s' := by
  unfold World.advance at hs
  split at hs
  · cases hs
  case h_2 t calls hcalls =>
    split at hs
    · cases hs
    · cases hs
    case h_3 handler handlers children hw =>
      cases hs
      obtain ⟨hwaits, hnodup, hnil, -⟩ := h.taken t _ hw
      obtain ⟨htask, hlt, hzero⟩ := hwaits handler List.mem_cons_self
      have hnext : Once (s.setWork t (some ⟨handlers, true, children⟩)) := by
        refine h.setWork hw ?_
        intro w' hw'
        cases hw'
        exact List.sublist_cons_self _ _
      -- It belongs to `t`, so that it can only be in a list of `t`.
      refine hnext.runHandler hlt hzero ?_ ?_
      · intro u hm
        have hu : s.handlerTask handler = u := ((hnext.installed u).1 handler hm).1
        rw [← hu, htask, World.setWork, setTask_apply, if_pos rfl] at hm
        rw [hnil] at hm
        cases hm
      · intro u w hwu hm
        have hu : s.handlerTask handler = u := ((hnext.taken u w hwu).1 handler hm).1
        rw [← hu, htask, World.setWork, setTask_apply, if_pos rfl] at hwu
        cases hwu
        exact (List.nodup_cons.mp hnodup).1 hm
    case h_4 c children hw =>
      cases hs
      refine (h.setWork hw ?_).cancelTask k c
      intro w' hw'
      cases hw'
      exact List.Sublist.refl _
    case h_5 hw =>
      cases hs
      have hnone : Once (s.setWork t none) := h.setWork hw nofun
      exact hnone.congr rfl rfl rfl rfl

theorem Once.handlerReturn (h : Once s) (hs : s.handlerReturn k = some s') : Once s' := by
  unfold World.handlerReturn at hs
  split at hs
  · cases hs
  · split at hs
    case h_1 handlers children hw =>
      cases hs
      refine h.setWork hw ?_
      intro w' hw'
      cases hw'
      exact List.Sublist.refl _
    case h_2 => cases hs

theorem Once.dropCalls (h : Once s) (k n) : Once (s.dropCalls k n) := by
  induction n generalizing s with
  | zero => exact h
  | succ n ih =>
    unfold World.dropCalls
    split
    · exact h
    · refine ih (Once.congr (h.setTask ?_ ?_) rfl rfl rfl rfl)
      · exact List.Sublist.refl _
      · nofun

theorem Once.setTask_same (h : Once s) {x}
    (hsub : x.cancelHandlers.Sublist (s.tasks t).cancelHandlers) (hw : x.work = (s.tasks t).work)
    (hc : x.cancelled = (s.tasks t).cancelled) : Once (s.setTask t x) := by
  refine h.setTask hsub ?_
  intro w hx
  rw [hw] at hx
  obtain ⟨-, -, hnil, hcancelled⟩ := h.taken t w hx
  rw [hnil] at hsub
  exact ⟨List.sublist_nil.mp hsub, hc.trans hcancelled, .inr ⟨w, hx, List.Sublist.refl _⟩⟩

theorem Once.newHandler (h : Once s) (t) :
    Once { s with
      handlerCount := s.handlerCount + 1
      handlerTask := update s.handlerTask s.handlerCount t } := by
  have hwaits : ∀ u l, s.Waits u l → World.Waits { s with
      handlerCount := s.handlerCount + 1
      handlerTask := update s.handlerTask s.handlerCount t } u l := by
    intro u l hl other hm
    obtain ⟨h1, h2, h3⟩ := hl other hm
    refine ⟨?_, Nat.lt_succ_of_lt h2, h3⟩
    simpa [Nat.ne_of_lt h2] using h1
  refine ⟨?_, ?_, h.runs, fun other hle => h.fresh other (Nat.le_of_succ_le hle)⟩
  · intro u
    exact ⟨hwaits u _ (h.installed u).1, (h.installed u).2⟩
  · intro u w hw
    obtain ⟨h1, h2⟩ := h.taken u w hw
    exact ⟨hwaits u _ h1, h2⟩

theorem Once.installHandler (h : Once s) (t) : Once (s.installHandler t) := by
  have hnew := h.newHandler t
  have hzero := h.fresh s.handlerCount (Nat.le_refl _)
  have hnot : ∀ u, s.handlerCount ∉ (s.tasks u).cancelHandlers := fun u hm =>
    Nat.lt_irrefl _ ((h.installed u).1 _ hm).2.1
  unfold World.installHandler
  dsimp only
  split
  · refine hnew.runHandler (Nat.lt_succ_self _) hzero hnot ?_
    intro u w hw hm
    exact Nat.lt_irrefl _ ((h.taken u w hw).1 _ hm).2.1
  case isFalse hclear =>
    refine ⟨?_, ?_, hnew.runs, hnew.fresh⟩
    · intro u
      rw [setTask_apply]
      split
      case isTrue hut =>
        subst hut
        refine ⟨?_, List.nodup_cons.mpr ⟨hnot u, (h.installed u).2⟩⟩
        intro other hm
        obtain rfl | hm := List.mem_cons.mp hm
        · exact ⟨update_self _ _ _, Nat.lt_succ_self _, hzero⟩
        · exact (hnew.installed u).1 other hm
      case isFalse => exact hnew.installed u
    · intro u w
      rw [setTask_apply]
      split
      · intro hw
        exact absurd (h.taken t w hw).2.2.2 hclear
      · exact hnew.taken u w

theorem Once.spawn (h : Once s) {parent} (hlive : ∀ p, parent = some p → s.Live p) :
    Once (s.spawn parent) := by
  have hnew : ∀ cancelled, Once (World.setTask { s with taskCount := s.taskCount + 1 } s.taskCount
      (TaskCancel.newTask parent cancelled)) := by
    intro cancelled
    have hs : Once { s with taskCount := s.taskCount + 1 } := h.congr rfl rfl rfl rfl
    refine hs.setTask (List.nil_sublist _) ?_
    intro w hw
    cases hw
  unfold World.spawn
  dsimp only
  split
  · exact hnew false
  case h_2 p =>
    split
    · exact hnew true
    · have hne : p ≠ s.taskCount := Nat.ne_of_lt (hlive p rfl).1
      have hsame : (World.setTask { s with taskCount := s.taskCount + 1 } s.taskCount
          (TaskCancel.newTask (some p) false)).tasks p = s.tasks p := by
        rw [setTask_apply, if_neg hne]
      refine (hnew false).setTask_same ?_ ?_ ?_
      · rw [hsame]
      · rw [hsame]
      · rw [hsame]

theorem step_once {a} (h : Once s) (hs : s.step a = some s') : Once s' := by
  cases a with simp only [step] at hs
  | spawn parent =>
    cases parent with
    | none =>
      cases hs
      exact h.spawn nofun
    | some p =>
      dsimp only at hs
      split at hs
      case isTrue hlive =>
        cases hs
        refine h.spawn ?_
        intro q hq
        cases hq
        exact hlive
      case isFalse => cases hs
  | finish t =>
    split at hs
    · cases hs
      exact h.setTask_same (List.nil_sublist _) rfl rfl
    · cases hs
  | removeChild t =>
    split at hs
    · split at hs
      · cases hs
        exact h.setTask_same (List.Sublist.refl _) rfl rfl
      · cases hs
    · cases hs
  | installHandler t =>
    split at hs
    · cases hs
      exact h.installHandler t
    · cases hs
  | removeHandler t handler =>
    cases hs
    exact h.setTask_same List.filter_sublist rfl rfl
  | cancel k t =>
    split at hs
    · cases hs
      exact h.cancelTask k t
    · cases hs
  | advance k => exact h.advance hs
  | handlerReturn k => exact h.handlerReturn hs
  | handlerEscape k n =>
    split at hs
    · cases hs
      exact h.dropCalls k n
    · cases hs

theorem initial_once : Once initial := by
  refine ⟨fun _ => ⟨nofun, List.nodup_nil⟩, nofun, fun _ => Nat.zero_le 1, fun _ _ => rfl⟩

/-! ## Cancellation reaches the descendants -/

/-- **Cancellation reaches every structured descendant**, as long as handlers
return: when the call on `r` has ended, a descendant that has not finished is
cancelled, or under a child that another call still has to visit. A handler runs
at most once, and a second call changes nothing. -/
theorem cancellation_reaches_descendants (actions : List Action) {s : World}
    (hr : run step initial actions = some s) :
    (Along step HandlersReturn initial actions → ∀ r, (s.tasks r).cancelled = true →
      (s.tasks r).work = none → ∀ d, Under s r d → (s.tasks d).done = false →
        (s.tasks d).cancelled = true ∨ ToBeVisited s r d) ∧
    (∀ handler, s.handlerRuns handler ≤ 1) ∧
    ∀ k t, (s.tasks t).cancelled = true → s.cancelTask k t = s := by
  refine ⟨?_, ?_, fun k t ht => cancelTask_of_cancelled k ht⟩
  · intro hc r hcancelled _ d hd hrun
    have h : Inv s := run_invariant (fun h hc hs => step_inv h hc hs) initial_inv hc hr
    exact h.descendants hcancelled hd hrun
  · have h : Once s := run_invariant' step_once initial_once hr
    exact h.runs

/-- A task with a child, a grandchild and a handler is cancelled. -/
theorem cancellation_reaches_descendants_three_tasks :
    ∃ s, run step initial [.spawn none, .spawn (some 0), .spawn (some 1), .installHandler 1,
        .cancel 5 0, .advance 5, .advance 5, .handlerReturn 5, .advance 5, .advance 5,
        .advance 5, .advance 5] = some s ∧
      s.calls 5 = [] ∧ (s.tasks 2).cancelled = true ∧
      (Along step HandlersReturn initial [.spawn none, .spawn (some 0), .spawn (some 1),
          .installHandler 1, .cancel 5 0, .advance 5, .advance 5, .handlerReturn 5, .advance 5,
          .advance 5, .advance 5, .advance 5] → ∀ r, (s.tasks r).cancelled = true →
        (s.tasks r).work = none → ∀ d, Under s r d → (s.tasks d).done = false →
          (s.tasks d).cancelled = true ∨ ToBeVisited s r d) ∧
      (∀ handler, s.handlerRuns handler ≤ 1) ∧
      ∀ k t, (s.tasks t).cancelled = true → s.cancelTask k t = s := by
  refine ⟨_, rfl, rfl, rfl, ?_⟩
  exact cancellation_reaches_descendants [.spawn none, .spawn (some 0), .spawn (some 1),
    .installHandler 1, .cancel 5 0, .advance 5, .advance 5, .handlerReturn 5, .advance 5,
    .advance 5, .advance 5, .advance 5] rfl

/-- While a handler of the child runs, another call cancels the parent, finds the
child cancelled and returns: the grandchild is not cancelled yet. -/
theorem cancellation_returns_before_grandchild :
    ∃ s, run step initial [.spawn none, .spawn (some 0), .spawn (some 1), .installHandler 1,
        .cancel 5 1, .advance 5, .cancel 6 0, .advance 6, .advance 6] = some s ∧
      Along step HandlersReturn initial [.spawn none, .spawn (some 0), .spawn (some 1),
        .installHandler 1, .cancel 5 1, .advance 5, .cancel 6 0, .advance 6, .advance 6] ∧
      s.calls 6 = [] ∧ (s.tasks 0).cancelled = true ∧ (s.tasks 0).work = none ∧ Under s 0 2 ∧
      (s.tasks 2).done = false ∧ (s.tasks 2).cancelled = false := by
  refine ⟨_, rfl, by decide, rfl, rfl, rfl, ?_, rfl, rfl⟩
  exact .child (.child .self (c := 1) rfl) rfl

end World

end MitScheme.Runtime.TaskCancel
