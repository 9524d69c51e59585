import MitScheme.Lib.Machine
import Mathlib.Data.List.Nodup
import Mathlib.Data.List.Perm.Basic

/-! # Task groups

`with-task-group` and the operations on a group, with any number of groups,
owners, children and consumers. What runs with the mutex of a group locked is
one step, except that a child runs while it is still being added. -/

namespace MitScheme.Runtime.TaskGroup
open Lib.Machine

abbrev TaskId := Nat
abbrev GroupId := Nat

/-! ## Data -/

inductive TaskState
  | running
  | completed
  | failed
  deriving DecidableEq

/-- A task. `hooked` is true when `%finish-task!` has called the finish hook; the
group is the one whose hook it has. -/
structure Task where
  state : TaskState
  cancelled : Bool
  group : Option GroupId
  hooked : Bool

/-- How the body of `with-task-group` ended. -/
inductive Outcome
  | returned
  | failed
  | escaped
  deriving DecidableEq

/-- Where a call of `%with-task-group` is. -/
inductive Scope
  /-- In the procedure. -/
  | body
  /-- Before `%close-task-group!`. -/
  | closing (outcome : Outcome)
  /-- Before `task-group-cancel-all!` gets the children. -/
  | cancelAll (outcome : Outcome)
  /-- In the loop of `task-group-cancel-all!`. -/
  | cancelling (outcome : Outcome) (children : List TaskId)
  /-- In `%task-group-discard-all`. -/
  | discarding (outcome : Outcome)
  /-- It has been left as the body ended. -/
  | left (outcome : Outcome)
  /-- Code of a cancellation handler or of an event has left it. -/
  | abandoned
  deriving DecidableEq

/-- A group. `adding` is the child of a `%task-group-add` that holds the mutex.
`added` and `collected` are its history: every child, and every child returned
by `%task-group-next-finished` with the task that got it. -/
structure Group where
  owner : TaskId
  isOpen : Bool
  cancelled : Bool
  pending : List TaskId
  finished : List TaskId
  waiters : List TaskId
  cancelOnExit : Bool
  scope : Scope
  adding : Option TaskId
  added : List TaskId
  collected : List (TaskId × TaskId)

namespace Group

/-- `%make-task-group`. -/
def make (owner : TaskId) (cancelOnExit : Bool) : Group :=
  ⟨owner, true, false, [], [], [], cancelOnExit, .body, none, [], []⟩

/-- `%close-task-group!`. -/
def close (g : Group) : Group := { g with isOpen := false }

/-- The end of `%task-group-add`. -/
def addPending (g : Group) (child : TaskId) : Group :=
  { g with
    pending := child :: g.pending
    adding := none
    added := child :: g.added }

/-- `%task-group-finish-hook`. -/
def finishHook (g : Group) (child : TaskId) : Group :=
  { g with
    pending := g.pending.filter (· ≠ child)
    finished := g.finished ++ [child]
    waiters := [] }

/-- What `%task-group-next-finished` finds. -/
inductive Next
  | child (t : TaskId)
  | eof
  | unavailable
  deriving DecidableEq

def tryNext (g : Group) : Next :=
  match g.finished, g.pending with
  | t :: _, _ => .child t
  | [], [] => .eof
  | [], _ :: _ => .unavailable

/-- `%task-group-next-finished` by a task, once. -/
def next (g : Group) (consumer : TaskId) : Group :=
  match g.finished, g.pending with
  | t :: rest, _ => { g with finished := rest, collected := (t, consumer) :: g.collected }
  | [], [] => g
  | [], _ :: _ => { g with waiters := consumer :: g.waiters }

end Group

structure World where
  tasks : TaskId → Task
  taskCount : Nat
  groups : GroupId → Group
  groupCount : Nat

namespace World

def setTask (s : World) (t : TaskId) (x : Task) : World :=
  { s with tasks := Function.update s.tasks t x }

def setGroup (s : World) (g : GroupId) (x : Group) : World :=
  { s with groups := Function.update s.groups g x }

/-! ## Operations -/

/-- `%spawn`: a structured child of a cancelled parent starts out cancelled. -/
def spawn (s : World) (x : Task) : World :=
  { s.setTask s.taskCount x with taskCount := s.taskCount + 1 }

/-- The start of `%task-group-add`, which signals an error when the group is
closed. -/
def addChild (s : World) (g : GroupId) (unlessCancelled : Bool) : World :=
  let x := s.groups g
  if x.isOpen = false then s
  else if unlessCancelled ∧ (x.cancelled ∨ (s.tasks x.owner).cancelled) then s
  else (s.spawn ⟨.running, (s.tasks x.owner).cancelled, some g, false⟩).setGroup g
    { x with adding := some s.taskCount }

/-- The first section of `cancel-task!`, for the flag. -/
def cancelTask (s : World) (t : TaskId) : World :=
  s.setTask t { s.tasks t with cancelled := true }

/-- The first section of `%finish-task!`. -/
def finishTask (s : World) (t : TaskId) (state : TaskState) : World :=
  s.setTask t { s.tasks t with state }

/-- The call of the finish hook in `%finish-task!`. -/
def callHook (s : World) (t : TaskId) (g : GroupId) : World :=
  (s.setTask t { s.tasks t with hooked := true }).setGroup g ((s.groups g).finishHook t)

def setScope (s : World) (g : GroupId) (scope : Scope) : World :=
  s.setGroup g { s.groups g with scope }

/-- The next step of `%with-task-group` after its body. -/
def scopeStep (s : World) (g : GroupId) : Option World :=
  let x := s.groups g
  match x.scope with
  | .closing outcome =>
    if outcome = .returned ∧ x.cancelOnExit = false then
      some (s.setGroup g { x.close with scope := .discarding outcome })
    else some (s.setGroup g { x.close with scope := .cancelAll outcome })
  | .cancelAll outcome =>
    some (s.setGroup g { x with cancelled := true, scope := .cancelling outcome x.pending })
  | .cancelling outcome [] => some (s.setScope g (.discarding outcome))
  | .cancelling outcome (t :: rest) =>
    some ((s.cancelTask t).setScope g (.cancelling outcome rest))
  | .discarding outcome =>
    let x' := x.next x.owner
    some (s.setGroup g (if x.tryNext = .eof then { x' with scope := .left outcome } else x'))
  | _ => none

end World

/-! ## Steps -/

inductive Action
  /-- `spawn-task` and `spawn-detached-task`. -/
  | spawn
  | withTaskGroup (owner : TaskId) (cancelOnExit : Bool)
  /-- `%task-group-add` has locked the group and spawned the child. -/
  | add (g : GroupId) (unlessCancelled : Bool)
  /-- `%task-group-add` puts the child on the list and unlocks the group. -/
  | addPending (g : GroupId)
  | cancel (t : TaskId)
  /-- The section of `%finish-task!`, which a continuation of the thunk of the
  task may call again. -/
  | finish (t : TaskId) (failed : Bool)
  /-- `%finish-task!` calls the finish hook. -/
  | hook (t : TaskId)
  /-- `%task-group-next-finished` locks the group and looks. -/
  | next (g : GroupId) (consumer : TaskId)
  /-- A consumer that was woken takes itself off the waiters. -/
  | removeWaiter (g : GroupId) (consumer : TaskId)
  /-- `task-group-cancel-all!` gets the children of the group. -/
  | cancelAll (g : GroupId)
  /-- The procedure ends. -/
  | leave (g : GroupId) (outcome : Outcome)
  /-- `%with-task-group` goes on. -/
  | scope (g : GroupId)
  /-- A non-local exit from what `%with-task-group` calls after the procedure. -/
  | abandon (g : GroupId)

namespace World

def Unlocked (s : World) (g : GroupId) : Prop := (s.groups g).adding = none

instance (s : World) (g : GroupId) : Decidable (s.Unlocked g) :=
  inferInstanceAs (Decidable (_ = _))

def step (s : World) : Action → Option World
  | .spawn => some (s.spawn ⟨.running, false, none, false⟩)
  | .withTaskGroup owner cancelOnExit =>
    some { s.setGroup s.groupCount (.make owner cancelOnExit) with groupCount := s.groupCount + 1 }
  | .add g unlessCancelled => if s.Unlocked g then some (s.addChild g unlessCancelled) else none
  | .addPending g =>
    match (s.groups g).adding with
    | some t => some (s.setGroup g ((s.groups g).addPending t))
    | none => none
  | .cancel t => if t < s.taskCount then some (s.cancelTask t) else none
  | .finish t failed =>
    if t < s.taskCount then some (s.finishTask t (if failed then .failed else .completed))
    else none
  | .hook t =>
    match (s.tasks t).group with
    | some g =>
      if (s.tasks t).state ≠ .running ∧ s.Unlocked g then
        some (s.callHook t g)
      else none
    | none => none
  | .next g consumer =>
    if s.Unlocked g then some (s.setGroup g ((s.groups g).next consumer)) else none
  | .removeWaiter g consumer =>
    if s.Unlocked g then
      some (s.setGroup g { s.groups g with
        waiters := (s.groups g).waiters.filter (· ≠ consumer) })
    else none
  | .cancelAll g =>
    if s.Unlocked g then some (s.setGroup g { s.groups g with cancelled := true }) else none
  | .leave g outcome =>
    if (s.groups g).scope = .body then some (s.setScope g (.closing outcome)) else none
  | .scope g => if s.Unlocked g then s.scopeStep g else none
  | .abandon g =>
    match (s.groups g).scope with
    | .closing _ => some (s.setScope g (.closing .escaped))
    | .cancelAll _ | .cancelling _ _ | .discarding _ => some (s.setScope g .abandoned)
    | _ => none

def initial : World where
  tasks := Function.update (fun _ => ⟨.completed, false, none, false⟩) 0
    ⟨.running, false, none, false⟩
  taskCount := 1
  groups := fun _ => { Group.make 0 false with isOpen := false, scope := .left .returned }
  groupCount := 0

/-- The finish hook of a task is not called again. -/
def FirstHook (s : World) : Action → Prop
  | .hook t => (s.tasks t).hooked = false
  | _ => True

instance (s : World) : (a : Action) → Decidable (s.FirstHook a)
  | .hook _ => inferInstanceAs (Decidable (_ = _))
  | .spawn | .withTaskGroup .. | .add .. | .addPending _ | .cancel _ | .finish .. | .next ..
  | .removeWaiter .. | .cancelAll _ | .leave .. | .scope _ | .abandon _ => isTrue trivial

/-! ## The invariant -/

def ScopeOk (x : Group) : Prop :=
  match x.scope with
  | .body | .closing _ => True
  | .left _ => x.isOpen = false ∧ x.pending = [] ∧ x.finished = []
  | _ => x.isOpen = false

theorem ScopeOk.of_open {x y} (h : ScopeOk x) (hopen : x.isOpen = true)
    (hscope : y.scope = x.scope) : ScopeOk y := by
  unfold ScopeOk at h ⊢
  rw [hscope]
  cases hs : x.scope with
  | body => trivial
  | closing outcome => trivial
  | left outcome =>
    rw [hs] at h
    rw [hopen] at h
    cases h.1
  | _ =>
    rw [hs] at h
    rw [hopen] at h
    cases h

theorem ScopeOk.of_children {x y} (h : ScopeOk x)
    (hchildren : ¬ (x.pending = [] ∧ x.finished = [])) (hopen : y.isOpen = x.isOpen)
    (hscope : y.scope = x.scope) : ScopeOk y := by
  unfold ScopeOk at h ⊢
  rw [hscope, hopen]
  cases hs : x.scope with
  | left outcome =>
    rw [hs] at h
    exact absurd h.2 hchildren
  | _ =>
    rw [hs] at h
    exact h

structure GroupOk (s : World) (g : GroupId) : Prop where
  /-- A child is pending, finished or collected, -/
  perm : ((s.groups g).pending ++ (s.groups g).finished ++
    (s.groups g).collected.map Prod.fst).Perm (s.groups g).added
  /-- and only once. -/
  once : (s.groups g).added.Nodup
  child : ∀ t, (s.tasks t).group = some g ↔
    t ∈ (s.groups g).added ∨ (s.groups g).adding = some t
  fresh : ∀ t, (s.groups g).adding = some t → t ∉ (s.groups g).added ∧ (s.tasks t).hooked = false
  hooked : ∀ t ∈ (s.groups g).added, (s.tasks t).hooked = true ↔ t ∉ (s.groups g).pending
  closed : (s.groups g).isOpen = false → (s.groups g).adding = none
  scope : ScopeOk (s.groups g)

structure Inv (s : World) : Prop where
  groups : ∀ g, GroupOk s g
  done : ∀ t, (s.tasks t).hooked = true → (s.tasks t).state ≠ .running
  noTask : ∀ t, s.taskCount ≤ t → (s.tasks t).group = none
  noGroup : ∀ g, s.groupCount ≤ g →
    (s.groups g).added = [] ∧ (s.groups g).adding = none ∧ (s.groups g).isOpen = false

variable {s s' : World} {g : GroupId} {t : TaskId}

theorem GroupOk.congr (h : GroupOk s g) (hg : s'.groups g = s.groups g)
    (ht : ∀ t, (s'.tasks t).group = some g ↔ (s.tasks t).group = some g)
    (hh : ∀ t, (s.tasks t).group = some g → (s'.tasks t).hooked = (s.tasks t).hooked) :
    GroupOk s' g := by
  refine ⟨?_, ?_, ?_, ?_, ?_, ?_, ?_⟩ <;> rw [hg]
  · exact h.perm
  · exact h.once
  · intro t
    rw [ht]
    exact h.child t
  · intro t hadding
    rw [hh t ((h.child t).mpr (.inr hadding))]
    exact h.fresh t hadding
  · intro t hadded
    rw [hh t ((h.child t).mpr (.inl hadded))]
    exact h.hooked t hadded
  · exact h.closed
  · exact h.scope

theorem setGroup_self (s : World) (g x) : (s.setGroup g x).groups g = x := by
  simp [World.setGroup]

theorem setGroup_of_ne {k} (s : World) (x) (h : k ≠ g) :
    (s.setGroup g x).groups k = s.groups k := by
  simp [World.setGroup, h]

theorem Inv.setGroup (h : Inv s) {x} (hok : GroupOk (s.setGroup g x) g)
    (hnew : s.groupCount ≤ g → x.added = [] ∧ x.adding = none ∧ x.isOpen = false) :
    Inv (s.setGroup g x) := by
  refine ⟨?_, h.done, h.noTask, ?_⟩
  · intro k
    by_cases hk : k = g
    · subst hk
      exact hok
    · exact (h.groups k).congr (setGroup_of_ne s x hk) (fun _ => Iff.rfl) fun _ _ => rfl
  · intro k hk
    by_cases hkg : k = g
    · subst hkg
      rw [setGroup_self]
      exact hnew hk
    · rw [setGroup_of_ne s x hkg]
      exact h.noGroup k hk

theorem Inv.setGroup_same (h : Inv s) {x} (hp : x.pending = (s.groups g).pending)
    (hperm : (x.finished ++ x.collected.map Prod.fst).Perm
      ((s.groups g).finished ++ (s.groups g).collected.map Prod.fst))
    (ha : x.added = (s.groups g).added) (hadding : x.adding = (s.groups g).adding)
    (hopen : x.isOpen = (s.groups g).isOpen ∨ x.isOpen = false ∧ x.adding = none)
    (hscope : ScopeOk x) : Inv (s.setGroup g x) := by
  have hold := h.groups g
  refine h.setGroup ?_ ?_
  swap
  · intro hk
    obtain ⟨hadded, hnone, hclosed⟩ := h.noGroup g hk
    refine ⟨ha.trans hadded, hadding.trans hnone, ?_⟩
    obtain hopen | hopen := hopen
    · exact hopen.trans hclosed
    · exact hopen.1
  refine ⟨?_, ?_, ?_, ?_, ?_, ?_, ?_⟩ <;> rw [setGroup_self]
  · rw [hp, ha, List.append_assoc]
    refine (hperm.append_left _).trans ?_
    rw [← List.append_assoc]
    exact hold.perm
  · rw [ha]
    exact hold.once
  · rw [ha, hadding]
    exact hold.child
  · rw [ha, hadding]
    exact hold.fresh
  · rw [ha, hp]
    exact hold.hooked
  · intro hclosed
    obtain hopen | hopen := hopen
    · rw [hadding]
      exact hold.closed (hopen.symm.trans hclosed)
    · exact hopen.2
  · exact hscope

theorem Inv.setTask (h : Inv s) {x} (hg : x.group = (s.tasks t).group)
    (hh : x.hooked = (s.tasks t).hooked) (hd : x.hooked = true → x.state ≠ .running) :
    Inv (s.setTask t x) := by
  have hgroup : ∀ u, ((s.setTask t x).tasks u).group = (s.tasks u).group := by
    intro u
    by_cases hut : u = t
    · subst hut
      simpa [World.setTask] using hg
    · simp [World.setTask, hut]
  have hhooked : ∀ u, ((s.setTask t x).tasks u).hooked = (s.tasks u).hooked := by
    intro u
    by_cases hut : u = t
    · subst hut
      simpa [World.setTask] using hh
    · simp [World.setTask, hut]
  refine ⟨?_, ?_, ?_, h.noGroup⟩
  · intro k
    refine (h.groups k).congr rfl ?_ fun u _ => hhooked u
    intro u
    rw [hgroup]
  · intro u
    by_cases hut : u = t
    · subst hut
      simpa [World.setTask] using hd
    · simpa [World.setTask, hut] using h.done u
  · intro u hu
    rw [hgroup]
    exact h.noTask u hu

theorem spawn_of_ne {u} (s : World) (x) (h : u ≠ s.taskCount) :
    (s.spawn x).tasks u = s.tasks u := by
  simp [World.spawn, World.setTask, h]

theorem spawn_self (s : World) (x) : (s.spawn x).tasks s.taskCount = x := by
  simp [World.spawn, World.setTask]

theorem GroupOk.spawn (h : GroupOk s g) {x} (hnone : (s.tasks s.taskCount).group = none)
    (hg : x.group ≠ some g) : GroupOk (s.spawn x) g := by
  refine h.congr rfl ?_ ?_
  · intro u
    by_cases hu : u = s.taskCount
    · subst hu
      rw [spawn_self, hnone]
      exact iff_of_false hg nofun
    · rw [spawn_of_ne s x hu]
  · intro u hgroup
    have hu : u ≠ s.taskCount := by
      intro hu
      rw [hu, hnone] at hgroup
      cases hgroup
    rw [spawn_of_ne s x hu]

theorem Inv.spawn_done (h : Inv s) {x} (hh : x.hooked = false) (u) :
    ((s.spawn x).tasks u).hooked = true → ((s.spawn x).tasks u).state ≠ .running := by
  by_cases hu : u = s.taskCount
  · subst hu
    rw [spawn_self, hh]
    nofun
  · rw [spawn_of_ne s x hu]
    exact h.done u

theorem Inv.spawn_noTask (h : Inv s) {x} (u) (hu : s.taskCount + 1 ≤ u) :
    ((s.spawn x).tasks u).group = none := by
  rw [spawn_of_ne s x (Nat.ne_of_gt hu)]
  exact h.noTask u (Nat.le_of_succ_le hu)

theorem Inv.spawn (h : Inv s) {x} (hg : x.group = none) (hh : x.hooked = false) :
    Inv (s.spawn x) := by
  refine ⟨?_, h.spawn_done hh, h.spawn_noTask, h.noGroup⟩
  intro k
  exact (h.groups k).spawn (h.noTask _ (Nat.le_refl _)) (by rw [hg]; nofun)

theorem Inv.addChild (h : Inv s) (hlock : s.Unlocked g) (unlessCancelled) :
    Inv (s.addChild g unlessCancelled) := by
  unfold World.addChild
  dsimp only
  split
  · exact h
  case isFalse hopen =>
    split
    · exact h
    · have hnone := h.noTask s.taskCount (Nat.le_refl _)
      have hold := h.groups g
      generalize hx : (⟨.running, (s.tasks (s.groups g).owner).cancelled, some g, false⟩ : Task) = x
      have hgroup : x.group = some g := by rw [← hx]
      have hhooked : x.hooked = false := by rw [← hx]
      have hnot : s.taskCount ∉ (s.groups g).added := by
        intro hm
        rw [(hold.child s.taskCount).mpr (.inl hm)] at hnone
        cases hnone
      refine ⟨?_, h.spawn_done hhooked, h.spawn_noTask, ?_⟩
      · intro k
        by_cases hk : k = g
        · subst hk
          refine ⟨?_, ?_, ?_, ?_, ?_, ?_, ?_⟩ <;> rw [setGroup_self]
          · exact hold.perm
          · exact hold.once
          · intro u
            show ((s.spawn x).tasks u).group = some k ↔ _
            by_cases hu : u = s.taskCount
            · subst hu
              rw [spawn_self, hgroup]
              exact iff_of_true rfl (.inr rfl)
            · rw [spawn_of_ne s x hu, hold.child u]
              refine or_congr Iff.rfl ?_
              rw [show (s.groups k).adding = none from hlock]
              exact iff_of_false nofun fun heq => hu (Option.some.inj heq).symm
          · intro u hadding
            cases hadding
            refine ⟨hnot, ?_⟩
            show ((s.spawn x).tasks s.taskCount).hooked = false
            rw [spawn_self, hhooked]
          · intro u hu
            show ((s.spawn x).tasks u).hooked = true ↔ _
            have hne : u ≠ s.taskCount := fun heq => hnot (heq ▸ hu)
            rw [spawn_of_ne s x hne]
            exact hold.hooked u hu
          · exact fun hclosed => absurd hclosed hopen
          · exact hold.scope
        · have hother := (h.groups k).spawn (x := x) hnone
            (by rw [hgroup]; exact fun heq => hk (Option.some.inj heq).symm)
          exact hother.congr (setGroup_of_ne _ _ hk) (fun _ => Iff.rfl) fun _ _ => rfl
      · intro k hk
        have hkg : k ≠ g := fun hkg => hopen (hkg ▸ (h.noGroup k hk).2.2)
        rw [setGroup_of_ne _ _ hkg]
        exact h.noGroup k hk

theorem Inv.addPending (h : Inv s) (ht : (s.groups g).adding = some t) :
    Inv (s.setGroup g ((s.groups g).addPending t)) := by
  have hold := h.groups g
  obtain ⟨hnot, hhooked⟩ := hold.fresh t ht
  refine h.setGroup ?_ ?_
  · refine ⟨?_, ?_, ?_, ?_, ?_, ?_, ?_⟩ <;> rw [setGroup_self]
    · exact hold.perm.cons t
    · exact List.nodup_cons.mpr ⟨hnot, hold.once⟩
    · intro u
      refine (hold.child u).trans ?_
      rw [ht]
      simp [Group.addPending, or_comm, eq_comm]
    · nofun
    · intro u hu
      show (s.tasks u).hooked = true ↔ u ∉ t :: (s.groups g).pending
      rw [List.mem_cons]
      by_cases hut : u = t
      · subst hut
        rw [hhooked]
        simp
      · have hadded : u ∈ (s.groups g).added := (List.mem_cons.mp hu).resolve_left hut
        rw [hold.hooked u hadded]
        simp [hut]
    · exact fun _ => rfl
    · refine hold.scope.of_open ?_ rfl
      by_contra hclosed
      rw [hold.closed (by simpa using hclosed)] at ht
      cases ht
  · intro hk
    rw [(h.noGroup g hk).2.1] at ht
    cases ht

theorem GroupOk.finishHook_perm (h : GroupOk s g) (hpending : t ∈ (s.groups g).pending) :
    (((s.groups g).finishHook t).pending ++ ((s.groups g).finishHook t).finished).Perm
      ((s.groups g).pending ++ (s.groups g).finished) := by
  have hnodup : (s.groups g).pending.Nodup := by
    have hall := h.perm.nodup_iff.mpr h.once
    exact (List.nodup_append.mp (List.nodup_append.mp hall).1).1
  have herase : (s.groups g).pending.filter (· ≠ t) = (s.groups g).pending.erase t := by
    rw [hnodup.erase_eq_filter]
    refine List.filter_congr fun u _ => ?_
    by_cases hu : u = t <;> simp [hu]
  have hmove : ((s.groups g).pending.filter (· ≠ t) ++ [t]).Perm (s.groups g).pending := by
    rw [herase]
    exact (List.perm_append_singleton t _).trans (List.perm_cons_erase hpending).symm
  refine List.Perm.trans ?_ (hmove.append_right (s.groups g).finished)
  rw [List.append_assoc]
  exact List.Perm.append_left _ List.perm_append_comm

theorem Inv.callHook (h : Inv s) (hg : (s.tasks t).group = some g)
    (hdone : (s.tasks t).state ≠ .running) (hh : (s.tasks t).hooked = false)
    (hlock : s.Unlocked g) : Inv (s.callHook t g) := by
  have hold := h.groups g
  have hadded : t ∈ (s.groups g).added := by
    obtain hm | hadding := (hold.child t).mp hg
    · exact hm
    · rw [show (s.groups g).adding = none from hlock] at hadding
      cases hadding
  have hpending : t ∈ (s.groups g).pending := by
    by_contra hm
    rw [(hold.hooked t hadded).mpr hm] at hh
    cases hh
  have htask : ∀ u, (((s.callHook t g).tasks u).group = (s.tasks u).group) ∧
      (u ≠ t → ((s.callHook t g).tasks u) = s.tasks u) := by
    intro u
    by_cases hut : u = t
    · subst hut
      simp [World.callHook, World.setGroup, World.setTask]
    · simp [World.callHook, World.setGroup, World.setTask, hut]
  have hself : (s.callHook t g).tasks t = { s.tasks t with hooked := true } := by
    simp [World.callHook, World.setGroup, World.setTask]
  have hnew : (s.callHook t g).groups g = (s.groups g).finishHook t := setGroup_self _ g _
  have hother : ∀ k, k ≠ g → (s.callHook t g).groups k = s.groups k := fun k hk =>
    setGroup_of_ne _ _ hk
  refine ⟨?_, ?_, ?_, ?_⟩
  · intro k
    by_cases hk : k = g
    · subst hk
      refine ⟨?_, ?_, ?_, ?_, ?_, ?_, ?_⟩ <;> rw [hnew]
      · exact ((hold.finishHook_perm hpending).append_right _).trans hold.perm
      · exact hold.once
      · intro u
        rw [(htask u).1]
        exact hold.child u
      · intro u hadding
        rw [show (Group.finishHook (s.groups k) t).adding = none from hlock] at hadding
        cases hadding
      · intro u hu
        show _ ↔ u ∉ (s.groups k).pending.filter (· ≠ t)
        by_cases hut : u = t
        · subst hut
          rw [hself]
          simp
        · rw [(htask u).2 hut, hold.hooked u hu]
          simp [hut]
      · exact hold.closed
      · exact hold.scope.of_children (fun hnil => List.ne_nil_of_mem hpending hnil.1) rfl rfl
    · refine (h.groups k).congr (hother k hk) (fun u => by rw [(htask u).1]) ?_
      intro u hu
      have hut : u ≠ t := by
        intro hut
        rw [hut, hg] at hu
        exact hk (Option.some.inj hu).symm
      rw [(htask u).2 hut]
  · intro u
    by_cases hut : u = t
    · subst hut
      rw [hself]
      exact fun _ => hdone
    · rw [(htask u).2 hut]
      exact h.done u
  · intro u hu
    rw [(htask u).1]
    exact h.noTask u hu
  · intro k hk
    have hkg : k ≠ g := by
      intro hkg
      rw [hkg] at hk
      rw [(h.noGroup g hk).1] at hadded
      cases hadded
    rw [hother k hkg]
    exact h.noGroup k hk

theorem Inv.makeGroup (h : Inv s) (owner cancelOnExit) :
    Inv { s.setGroup s.groupCount (.make owner cancelOnExit) with
      groupCount := s.groupCount + 1 } := by
  obtain ⟨hadded, hadding, -⟩ := h.noGroup s.groupCount (Nat.le_refl _)
  have hchild : ∀ t, (s.tasks t).group ≠ some s.groupCount := by
    intro t hg
    have := ((h.groups s.groupCount).child t).mp hg
    rw [hadded, hadding] at this
    simp at this
  refine ⟨?_, h.done, h.noTask, ?_⟩
  · intro k
    by_cases hk : k = s.groupCount
    · subst hk
      refine ⟨?_, ?_, ?_, ?_, ?_, ?_, ?_⟩ <;>
        rw [show _ = _ from setGroup_self s s.groupCount (.make owner cancelOnExit)]
      · exact List.Perm.refl _
      · exact List.nodup_nil
      · intro t
        exact iff_of_false (hchild t) (by simp [Group.make])
      · nofun
      · nofun
      · nofun
      · trivial
    · exact (h.groups k).congr (setGroup_of_ne s _ hk) (fun _ => Iff.rfl) fun _ _ => rfl
  · intro k hk
    have hkg : k ≠ s.groupCount := Nat.ne_of_gt hk
    rw [show _ = _ from setGroup_of_ne s (.make owner cancelOnExit) hkg]
    exact h.noGroup k (Nat.le_of_succ_le hk)

theorem Inv.next (h : Inv s) (consumer) {scope}
    (hscope : scope = (s.groups g).scope ∨ ∃ outcome, scope = .left outcome ∧
      (s.groups g).tryNext = .eof ∧ (s.groups g).isOpen = false) :
    Inv (s.setGroup g { (s.groups g).next consumer with scope }) := by
  have hold := (h.groups g).scope
  cases hf : (s.groups g).finished with
  | cons t rest =>
    have hsame : scope = (s.groups g).scope := by
      refine hscope.resolve_right ?_
      rintro ⟨outcome, -, heof, -⟩
      simp [Group.tryNext, hf] at heof
    subst hsame
    have hnext : (s.groups g).next consumer = { s.groups g with
        finished := rest, collected := (t, consumer) :: (s.groups g).collected } := by
      simp [Group.next, hf]
    rw [hnext]
    refine h.setGroup_same rfl ?_ rfl rfl (.inl rfl) ?_
    · rw [hf]
      exact List.perm_middle
    · exact hold.of_children (fun hnil => by rw [hf] at hnil; cases hnil.2) rfl rfl
  | nil =>
    cases hp : (s.groups g).pending with
    | nil =>
      have hnext : (s.groups g).next consumer = s.groups g := by
        simp [Group.next, hf, hp]
      rw [hnext]
      refine h.setGroup_same rfl (List.Perm.refl _) rfl rfl (.inl rfl) ?_
      obtain rfl | ⟨outcome, rfl, -, hclosed⟩ := hscope
      · exact hold
      · exact ⟨hclosed, hp, hf⟩
    | cons t rest =>
      have hsame : scope = (s.groups g).scope := by
        refine hscope.resolve_right ?_
        rintro ⟨outcome, -, heof, -⟩
        simp [Group.tryNext, hf, hp] at heof
      subst hsame
      have hnext : (s.groups g).next consumer = { s.groups g with
          waiters := consumer :: (s.groups g).waiters } := by
        simp [Group.next, hf, hp]
      rw [hnext]
      exact h.setGroup_same rfl (List.Perm.refl _) rfl rfl (.inl rfl) hold

theorem next_scope (x : Group) (consumer) : (x.next consumer).scope = x.scope := by
  unfold Group.next
  split <;> rfl

theorem Inv.next_same (h : Inv s) (consumer) : Inv (s.setGroup g ((s.groups g).next consumer)) := by
  have hnext := h.next (g := g) consumer (.inl rfl)
  rwa [← next_scope (s.groups g) consumer] at hnext

theorem Inv.setScope (h : Inv s) {x} (scope)
    (hx : x = { s.groups g with isOpen := x.isOpen, cancelled := x.cancelled, scope }) 
    (hopen : x.isOpen = (s.groups g).isOpen ∨ x.isOpen = false ∧ (s.groups g).adding = none)
    (hscope : ScopeOk x) : Inv (s.setGroup g x) := by
  refine h.setGroup_same ?_ ?_ ?_ ?_ ?_ hscope
  · rw [hx]
  · rw [hx]
  · rw [hx]
  · rw [hx]
  · obtain hopen | ⟨hclosed, hadding⟩ := hopen
    · exact .inl hopen
    · refine .inr ⟨hclosed, ?_⟩
      rw [hx]
      exact hadding

theorem Inv.cancelTask (h : Inv s) (t) : Inv (s.cancelTask t) :=
  h.setTask rfl rfl (h.done t)

theorem Inv.scopeStep (h : Inv s) (hlock : s.Unlocked g) (hs : s.scopeStep g = some s') :
    Inv s' := by
  have hold := (h.groups g).scope
  unfold World.scopeStep at hs
  unfold ScopeOk at hold
  dsimp only at hs
  cases hscope : (s.groups g).scope with
  | body =>
    rw [hscope] at hs
    cases hs
  | closing outcome =>
    rw [hscope] at hs
    dsimp only at hs
    split at hs
    · cases hs
      exact h.setScope (.discarding outcome) rfl (.inr ⟨rfl, hlock⟩) rfl
    · cases hs
      exact h.setScope (.cancelAll outcome) rfl (.inr ⟨rfl, hlock⟩) rfl
  | cancelAll outcome =>
    rw [hscope] at hs hold
    cases hs
    exact h.setScope (.cancelling outcome (s.groups g).pending) rfl (.inl rfl) hold
  | cancelling outcome children =>
    rw [hscope] at hs hold
    cases children with
    | nil =>
      cases hs
      exact h.setScope (.discarding outcome) rfl (.inl rfl) hold
    | cons t rest =>
      cases hs
      exact (h.cancelTask t).setScope (.cancelling outcome rest) rfl (.inl rfl) hold
  | discarding outcome =>
    rw [hscope] at hs hold
    cases hs
    split
    case isTrue heof => exact h.next _ (.inr ⟨outcome, rfl, heof, hold⟩)
    case isFalse => exact h.next_same _
  | left outcome =>
    rw [hscope] at hs
    cases hs
  | abandoned =>
    rw [hscope] at hs
    cases hs

theorem step_inv {a} (h : Inv s) (ha : s.FirstHook a) (hs : s.step a = some s') : Inv s' := by
  cases a with
  | spawn =>
    cases hs
    exact h.spawn rfl rfl
  | withTaskGroup owner cancelOnExit =>
    cases hs
    exact h.makeGroup owner cancelOnExit
  | add g unlessCancelled =>
    simp only [step] at hs
    split at hs
    case isTrue hlock =>
      cases hs
      exact h.addChild hlock unlessCancelled
    case isFalse => cases hs
  | addPending g =>
    simp only [step] at hs
    split at hs
    case h_1 t hadding =>
      cases hs
      exact h.addPending hadding
    case h_2 => cases hs
  | cancel t =>
    simp only [step] at hs
    split at hs
    · cases hs
      exact h.cancelTask t
    · cases hs
  | finish t failed =>
    simp only [step] at hs
    split at hs
    · cases hs
      refine h.setTask rfl rfl fun _ => ?_
      cases failed <;> nofun
    · cases hs
  | hook t =>
    simp only [step] at hs
    split at hs
    case h_1 g hg =>
      split at hs
      case isTrue hc =>
        cases hs
        exact h.callHook hg hc.1 ha hc.2
      case isFalse => cases hs
    case h_2 => cases hs
  | next g consumer =>
    simp only [step] at hs
    split at hs
    · cases hs
      exact h.next_same consumer
    · cases hs
  | removeWaiter g consumer =>
    simp only [step] at hs
    split at hs
    · cases hs
      exact h.setGroup_same rfl (List.Perm.refl _) rfl rfl (.inl rfl) (h.groups g).scope
    · cases hs
  | cancelAll g =>
    simp only [step] at hs
    split at hs
    · cases hs
      exact h.setGroup_same rfl (List.Perm.refl _) rfl rfl (.inl rfl) (h.groups g).scope
    · cases hs
  | leave g outcome =>
    simp only [step] at hs
    split at hs
    · cases hs
      exact h.setScope (.closing outcome) rfl (.inl rfl) trivial
    · cases hs
  | scope g =>
    simp only [step] at hs
    split at hs
    case isTrue hlock => exact h.scopeStep hlock hs
    case isFalse => cases hs
  | abandon g =>
    have hold := (h.groups g).scope
    unfold ScopeOk at hold
    simp only [step] at hs
    split at hs
    case h_1 => cases hs; exact h.setScope (.closing .escaped) rfl (.inl rfl) trivial
    case h_2 hscope =>
      rw [hscope] at hold
      cases hs
      exact h.setScope .abandoned rfl (.inl rfl) hold
    case h_3 hscope =>
      rw [hscope] at hold
      cases hs
      exact h.setScope .abandoned rfl (.inl rfl) hold
    case h_4 hscope =>
      rw [hscope] at hold
      cases hs
      exact h.setScope .abandoned rfl (.inl rfl) hold
    case h_5 => cases hs

theorem initial_inv : Inv initial := by
  have hgroup : ∀ t, (initial.tasks t).group = none := by
    intro t
    by_cases ht : t = 0 <;> simp [initial, ht]
  have hhooked : ∀ t, (initial.tasks t).hooked = false := by
    intro t
    by_cases ht : t = 0 <;> simp [initial, ht]
  refine ⟨?_, ?_, fun t _ => hgroup t, fun _ _ => ⟨rfl, rfl, rfl⟩⟩
  · intro g
    refine ⟨List.Perm.refl _, List.nodup_nil, ?_, nofun, nofun, fun _ => rfl, rfl, rfl, rfl⟩
    intro t
    rw [hgroup]
    exact iff_of_false nofun (by simp [initial, Group.make])
  · intro t ht
    rw [hhooked] at ht
    cases ht

/-! ## Children and their scope -/

def places (x : Group) (t : TaskId) : Nat :=
  x.pending.count t + x.finished.count t + (x.collected.map Prod.fst).count t

theorem GroupOk.places_eq (h : GroupOk s g) (ht : t ∈ (s.groups g).added) :
    places (s.groups g) t = 1 := by
  have hcount := h.perm.count_eq t
  rw [List.count_append, List.count_append, List.count_eq_one_of_mem h.once ht] at hcount
  exact hcount

theorem Inv.drained (h : Inv s) (hp : (s.groups g).pending = []) (hf : (s.groups g).finished = [])
    (hadding : (s.groups g).adding = none) (hg : (s.tasks t).group = some g) :
    (s.tasks t).state ≠ .running ∧ ∃ consumer, (t, consumer) ∈ (s.groups g).collected := by
  have hold := h.groups g
  have hadded : t ∈ (s.groups g).added := by
    obtain hm | hm := (hold.child t).mp hg
    · exact hm
    · rw [hadding] at hm
      cases hm
  refine ⟨h.done t ((hold.hooked t hadded).mpr (by rw [hp]; exact List.not_mem_nil)), ?_⟩
  have hm := hold.perm.mem_iff.mpr hadded
  rw [hp, hf, List.nil_append, List.nil_append] at hm
  obtain ⟨⟨u, consumer⟩, hc, rfl⟩ := List.mem_map.mp hm
  exact ⟨consumer, hc⟩

/-- What is promised of the children of a group: every child that has been added
is in one of the pending list, the finished queue and the hands of one consumer;
the EOF object is returned only when every child has finished and been collected;
and when `with-task-group` has been left as its body ended, every child has
finished. -/
structure Sound (s : World) (g : GroupId) : Prop where
  once : ∀ t, (s.tasks t).group = some g →
    (s.groups g).adding = some t ∨ places (s.groups g) t = 1
  eof : s.Unlocked g → (s.groups g).tryNext = .eof → ∀ t, (s.tasks t).group = some g →
    (s.tasks t).state ≠ .running ∧ ∃ consumer, (t, consumer) ∈ (s.groups g).collected
  left : ∀ outcome, (s.groups g).scope = .left outcome → ∀ t, (s.tasks t).group = some g →
    (s.tasks t).state = .completed ∨ (s.tasks t).state = .failed

theorem Inv.sound (h : Inv s) (g) : Sound s g := by
  have hold := h.groups g
  refine ⟨?_, ?_, ?_⟩
  · intro t hg
    obtain hadded | hadding := (hold.child t).mp hg
    · exact .inr (hold.places_eq hadded)
    · exact .inl hadding
  · intro hlock heof t hg
    have hnone : (s.groups g).pending = [] ∧ (s.groups g).finished = [] := by
      unfold Group.tryNext at heof
      split at heof
      case h_1 => cases heof
      case h_2 hf hp => exact ⟨hp, hf⟩
      case h_3 => cases heof
    exact h.drained hnone.1 hnone.2 hlock hg
  · intro outcome hleft t hg
    have hscope := hold.scope
    rw [ScopeOk, hleft] at hscope
    obtain ⟨hclosed, hp, hf⟩ := hscope
    have hdone := (h.drained hp hf (hold.closed hclosed) hg).1
    cases hstate : (s.tasks t).state with
    | running => exact absurd hstate hdone
    | completed => exact .inl rfl
    | failed => exact .inr rfl

end World

end MitScheme.Runtime.TaskGroup
