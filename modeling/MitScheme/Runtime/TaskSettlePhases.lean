import MitScheme.Runtime.TaskSettle

/-! # The stages of a task

The invariant: one thread at a time is past the locked section for a task, and a task that runs has
a thread that will settle it. Most steps move a thread without touching the stage of a task. -/

namespace MitScheme.Runtime.TaskSettle
open Lib.Machine Function
open TaskGroup (TaskId TaskState)

variable {V : Type} {exited : TaskId → V} {s s' : World V} {t : TaskId} {i : ThreadId}
  {p : Place V}

/-! ## The stages of a task -/

/-- The waiters at the change of the state are woken, or in a list. -/
def Waking (x : Task V) (waiters : List ThreadId) : Prop :=
  ∀ u ∈ x.registered, u ∈ x.woken ∨ u ∈ waiters

def Removed (s : World V) (t : TaskId) : Prop :=
  ∀ p ∈ (s.tasks t).parent, t ∉ (s.tasks p).children

def Hooked (x : Task V) : Prop := x.hookRuns = if x.finishHook then 1 else 0

def StageOk (s : World V) (t : TaskId) : Stage V → Prop
  | .locking _ _ => True
  | .cut => False
  | .settled waiters => (s.tasks t).hookRuns = 0 ∧ Waking (s.tasks t) waiters
  | .removed waiters =>
    (s.tasks t).hookRuns = 0 ∧ Waking (s.tasks t) waiters ∧ Removed s t
  | .hooked waiters => Hooked (s.tasks t) ∧ Waking (s.tasks t) waiters ∧ Removed s t

structure Phases (s : World V) (t : TaskId) : Prop where
  running : (s.tasks t).state = .running → (s.tasks t).changes = 0 ∧ (s.tasks t).hookRuns = 0 ∧
    ∀ i stage, (s.place i).stage = some (t, stage) → stage.isLocking = true
  settled : (s.tasks t).state ≠ .running → (s.tasks t).changes = 1
  unique : ∀ i j stage stage', (s.place i).stage = some (t, stage) →
    (s.place j).stage = some (t, stage') → stage.isLocking = false → stage'.isLocking = false → i = j
  stages : ∀ i stage, (s.place i).stage = some (t, stage) → StageOk s t stage
  done : (s.tasks t).state ≠ .running →
    (∀ i stage, (s.place i).stage = some (t, stage) → stage.busy = false) →
    Hooked (s.tasks t) ∧ Waking (s.tasks t) []
  removed : 0 < (s.tasks t).hookRuns → Removed s t

structure SameTask (x x' : Task V) : Prop where
  parent : x'.parent = x.parent
  finishHook : x'.finishHook = x.finishHook
  state : x'.state = x.state
  changes : x'.changes = x.changes
  hookRuns : x'.hookRuns = x.hookRuns
  registered : x'.registered = x.registered
  woken : x'.woken = x.woken

theorem SameTask.refl (x : Task V) : SameTask x x := ⟨rfl, rfl, rfl, rfl, rfl, rfl, rfl⟩

theorem SameTask.waking {x x' : Task V} (h : SameTask x x') {waiters : List ThreadId} :
    Waking x' waiters ↔ Waking x waiters := by
  rw [Waking, Waking, h.registered, h.woken]

theorem SameTask.hooked {x x' : Task V} (h : SameTask x x') : Hooked x' ↔ Hooked x := by
  rw [Hooked, Hooked, h.hookRuns, h.finishHook]

theorem Removed.mono (h : Removed s t) (hparent : (s'.tasks t).parent = (s.tasks t).parent)
    (hchildren : ∀ p ∈ (s.tasks t).parent, t ∈ (s'.tasks p).children → t ∈ (s.tasks p).children) :
    Removed s' t := by
  intro p hp hmem
  rw [hparent] at hp
  exact h p hp (hchildren p hp hmem)

theorem StageOk.mono {stage : Stage V} (h : StageOk s t stage)
    (hsame : SameTask (s.tasks t) (s'.tasks t))
    (hchildren : ∀ p ∈ (s.tasks t).parent, t ∈ (s'.tasks p).children → t ∈ (s.tasks p).children) :
    StageOk s' t stage := by
  cases stage with
  | locking failed result => trivial
  | cut => exact h
  | settled waiters => exact ⟨hsame.hookRuns.trans h.1, hsame.waking.mpr h.2⟩
  | removed waiters =>
    exact ⟨hsame.hookRuns.trans h.1, hsame.waking.mpr h.2.1, h.2.2.mono hsame.parent hchildren⟩
  | hooked waiters =>
    exact ⟨hsame.hooked.mpr h.1, hsame.waking.mpr h.2.1, h.2.2.mono hsame.parent hchildren⟩

theorem StageOk.of_locking {stage} (h : stage.isLocking = true) : StageOk s t stage := by
  cases stage with
  | locking failed result => trivial
  | _ => cases h

theorem Phases.mono (h : Phases s t) (hsame : SameTask (s.tasks t) (s'.tasks t))
    (hchildren : ∀ p ∈ (s.tasks t).parent, t ∈ (s'.tasks p).children → t ∈ (s.tasks p).children)
    (hplace : ∀ i stage, (s'.place i).stage = some (t, stage) →
      stage.isLocking = true ∨ (s.place i).stage = some (t, stage))
    (hbusy : ∀ i stage, (s.place i).stage = some (t, stage) → stage.busy = true →
      (s'.place i).stage = some (t, stage)) : Phases s' t := by
  refine ⟨?_, ?_, ?_, ?_, ?_, ?_⟩
  · intro hrunning
    rw [hsame.state] at hrunning
    obtain ⟨hchanges, hhook, hlocking⟩ := h.running hrunning
    refine ⟨hsame.changes.trans hchanges, hsame.hookRuns.trans hhook, fun i stage hi => ?_⟩
    exact (hplace i stage hi).elim id (hlocking i stage)
  · rw [hsame.state, hsame.changes]
    exact h.settled
  · intro i j stage stage' hi hj hli hlj
    refine h.unique i j stage stage' ((hplace i stage hi).resolve_left ?_)
      ((hplace j stage' hj).resolve_left ?_) hli hlj
    · rw [hli]
      exact Bool.false_ne_true
    · rw [hlj]
      exact Bool.false_ne_true
  · intro i stage hi
    rcases hplace i stage hi with hlocking | hold
    · exact .of_locking hlocking
    · exact (h.stages i stage hold).mono hsame hchildren
  · intro hstate hnone
    rw [hsame.state] at hstate
    have hdone := h.done hstate fun i stage hi => by
      cases hb : stage.busy with
      | false => rfl
      | true => exact hb.symm.trans (hnone i stage (hbusy i stage hi hb))
    exact ⟨hsame.hooked.mpr hdone.1, hsame.waking.mpr hdone.2⟩
  · rw [hsame.hookRuns]
    exact fun hpos => (h.removed hpos).mono hsame.parent hchildren

theorem Phases.move (h : Phases s t) (hsame : SameTask (s.tasks t) (s'.tasks t))
    (hchildren : ∀ p ∈ (s.tasks t).parent, t ∈ (s'.tasks p).children → t ∈ (s.tasks p).children)
    (hplace : s'.place = update s.place i p)
    (hold : ∀ stage, (s.place i).stage = some (t, stage) → stage.busy = false)
    (hnew : ∀ stage, p.stage = some (t, stage) → stage.isLocking = true) : Phases s' t := by
  refine h.mono hsame hchildren ?_ ?_
  · intro j stage hj
    rw [hplace] at hj
    by_cases hji : j = i
    · subst hji
      rw [update_self] at hj
      exact .inl (hnew stage hj)
    · rw [update_of_ne hji] at hj
      exact .inr hj
  · intro j stage hj hbusy
    have hji : j ≠ i := by
      rintro rfl
      rw [hold stage hj] at hbusy
      cases hbusy
    rw [hplace, update_of_ne hji]
    exact hj

theorem Place.stage_setStage {stage stage'} (h : p.stage = some (t, stage)) :
    (p.setStage stage').stage = some (t, stage') := by
  cases p with
  | finishing u st =>
    cases h
    rfl
  | aborting u st next =>
    cases h
    rfl
  | _ => cases h

theorem phases_advance {stage stage'} (hi : (s.place i).stage = some (t, stage))
    (hplace : s'.place = update s.place i ((s.place i).setStage stage'))
    (hothers : ∀ j st, j ≠ i → (s.place j).stage = some (t, st) → st.isLocking = true)
    (hstate : (s'.tasks t).state ≠ .running) (hchanges : (s'.tasks t).changes = 1)
    (hok : StageOk s' t stage')
    (hdone : stage'.busy = false → Hooked (s'.tasks t) ∧ Waking (s'.tasks t) [])
    (hremoved : 0 < (s'.tasks t).hookRuns → Removed s' t) : Phases s' t := by
  have hself : (s'.place i).stage = some (t, stage') := by
    rw [hplace, update_self]
    exact Place.stage_setStage hi
  have hother : ∀ j st, j ≠ i → (s'.place j).stage = some (t, st) → st.isLocking = true := by
    intro j st hji hj
    rw [hplace, update_of_ne hji] at hj
    exact hothers j st hji hj
  have hcases : ∀ j st, (s'.place j).stage = some (t, st) → st.isLocking = false → j = i := by
    intro j st hj hst
    by_contra hji
    rw [hother j st hji hj] at hst
    cases hst
  refine ⟨fun hrunning => absurd hrunning hstate, fun _ => hchanges, ?_, ?_, ?_, hremoved⟩
  · intro j k stj stk hj hk hlj hlk
    rw [hcases j stj hj hlj, hcases k stk hk hlk]
  · intro j st hj
    by_cases hji : j = i
    · subst hji
      rw [hself] at hj
      cases hj
      exact hok
    · exact .of_locking (hother j st hji hj)
  · exact fun _ hnone => hdone (hnone i stage' hself)

theorem Phases.others (h : Phases s t) {stage} (hi : (s.place i).stage = some (t, stage))
    (hnot : stage.isLocking = false) :
    (s.tasks t).state ≠ .running ∧
      ∀ j st, j ≠ i → (s.place j).stage = some (t, st) → st.isLocking = true := by
  refine ⟨fun hrunning => ?_, fun j st hji hj => ?_⟩
  · rw [(h.running hrunning).2.2 i stage hi] at hnot
    cases hnot
  · cases hst : st.isLocking with
    | true => rfl
    | false => exact absurd (h.unique j i st stage hj hi hst hnot) hji

/-! ## The invariant -/

def Place.Below (n : Nat) : Place V → Prop
  | .starting t | .body t | .finishing t _ | .outside (some t) => t < n
  | .checking t next | .aborting t _ next => t < n ∧ next.Below n
  | _ => True

def Place.NextOk (home : Option TaskId) : Place V → Prop
  | .checking t next | .aborting t _ next => next.isPlain = true ∨ (next = .dead ∧ home = some t)
  | _ => True

/-- A task that runs will be settled when its thread exits, if not before. -/
def Live (s : World V) (t : TaskId) : Prop :=
  ∀ i, s.home i = some t → (s.tasks t).state = .running →
    s.place i = .starting t ∨ (∃ j, (s.place j).aborts t = true) ∨
      ((s.tasks t).inside = true ∧ s.place i ≠ .dead)

structure Inv (s : World V) : Prop where
  home : ∀ t i, (s.tasks t).thread = some i ↔ s.home i = some t
  born : ∀ t i, s.home i = some t → s.place i ≠ .unborn
  thread : ∀ t, s.taskCount ≤ t → (s.tasks t).thread = none
  below : ∀ i, (s.place i).Below s.taskCount
  next : ∀ i, (s.place i).NextOk (s.home i)
  children : ∀ t, ∀ c ∈ (s.tasks t).children, c < s.taskCount
  captured : ∀ p ∈ s.captured, p.Below s.taskCount
  phases : ∀ t < s.taskCount, Phases s t
  live : ∀ t < s.taskCount, Live s t

theorem Place.Below.stage {n} (h : p.Below n) {stage} (hp : p.stage = some (t, stage)) : t < n := by
  cases p with
  | finishing u st =>
    cases hp
    exact h
  | aborting u st next =>
    cases hp
    exact h.1
  | _ => cases hp

theorem Place.Below.mono {n m} (hnm : n ≤ m) : ∀ {p : Place V}, p.Below n → p.Below m
  | .starting _, h | .body _, h | .finishing _ _, h | .outside (some _), h =>
    Nat.lt_of_lt_of_le h hnm
  | .checking _ _, h | .aborting _ _ _, h => ⟨Nat.lt_of_lt_of_le h.1 hnm, h.2.mono hnm⟩
  | .outside none, _ | .unborn, _ | .dead, _ => trivial

theorem Place.nextOk_of_plain (h : p.isPlain = true) (home : Option TaskId) : p.NextOk home := by
  cases p with
  | outside space => trivial
  | starting t => trivial
  | body t => trivial
  | _ => cases h

theorem Place.stage_of_plain (h : p.isPlain = true) : p.stage = none := by
  cases p with
  | outside space => rfl
  | starting t => rfl
  | body t => rfl
  | _ => cases h

/-! ## A thread moves -/

/-- Thread `i` goes to the place `p`, and no task gets to another stage. -/
structure Moves (s : World V) (i : ThreadId) (p : Place V) (s' : World V) : Prop where
  place : s'.place = update s.place i p
  same : ∀ t, SameTask (s.tasks t) (s'.tasks t)
  children : ∀ t, (s'.tasks t).children = (s.tasks t).children
  thread : ∀ t, (s'.tasks t).thread = (s.tasks t).thread
  inside : ∀ t, (s.tasks t).inside = true →
    (s'.tasks t).inside = true ∨ ∃ next, p = .checking t next
  home : s'.home = s.home
  taskCount : s'.taskCount = s.taskCount
  captured : s'.captured = s.captured

structure MoveOk (s : World V) (i : ThreadId) (p : Place V) (s' : World V) : Prop where
  below : p.Below s.taskCount
  next : p.NextOk (s.home i)
  born : p ≠ .unborn ∨ s.home i = none
  left : ∀ t stage, (s.place i).stage = some (t, stage) → stage.busy = false
  entered : ∀ t stage, p.stage = some (t, stage) → stage.isLocking = true
  starting : ∀ t, s.place i = .starting t → (s.tasks t).state = .running →
    (s'.tasks t).inside = true ∧ p ≠ .dead
  aborts : ∀ t, (s.place i).aborts t = true → (s.tasks t).state = .running → p.aborts t = true
  dead : p = .dead → ∀ t, s.home i = some t → (s.tasks t).state = .running →
    (s.tasks t).inside = false

theorem Live.moves (h : Live s t) (hm : Moves s i p s') (hok : MoveOk s i p s') : Live s' t := by
  intro k hk hrunning
  rw [hm.home] at hk
  rw [(hm.same t).state] at hrunning
  have hself : s'.place i = p := by rw [hm.place, update_self]
  have hother : ∀ j, j ≠ i → s'.place j = s.place j := fun j hj => by
    rw [hm.place, update_of_ne hj]
  rcases h k hk hrunning with hstarting | ⟨j, hj⟩ | ⟨hinside, hnot⟩
  · by_cases hki : k = i
    · subst hki
      obtain ⟨hinside, hnot⟩ := hok.starting t hstarting hrunning
      exact .inr (.inr ⟨hinside, hself ▸ hnot⟩)
    · exact .inl ((hother k hki).trans hstarting)
  · refine .inr (.inl ⟨j, ?_⟩)
    by_cases hji : j = i
    · subst hji
      rw [hself]
      exact hok.aborts t hj hrunning
    · rw [hother j hji]
      exact hj
  · rcases hm.inside t hinside with hin | ⟨next, hnext⟩
    · refine .inr (.inr ⟨hin, ?_⟩)
      by_cases hki : k = i
      · subst hki
        rw [hself]
        intro hdead
        rw [hok.dead hdead t hk hrunning] at hinside
        cases hinside
      · rw [hother k hki]
        exact hnot
    · refine .inr (.inl ⟨i, ?_⟩)
      rw [hself, hnext]
      exact decide_eq_true rfl

theorem Inv.moves (h : Inv s) (hm : Moves s i p s') (hok : MoveOk s i p s') : Inv s' := by
  have hplaces : ∀ P : ThreadId → Place V → Prop, P i p → (∀ j, P j (s.place j)) →
      ∀ j, P j (s'.place j) := by
    intro P hp hall j
    rw [hm.place]
    by_cases hji : j = i
    · subst hji
      rwa [update_self]
    · rw [update_of_ne hji]
      exact hall j
  refine ⟨?_, ?_, ?_, ?_, ?_, ?_, ?_, ?_, ?_⟩
  · intro t k
    rw [hm.thread, hm.home]
    exact h.home t k
  · intro t
    rw [hm.home]
    refine hplaces (fun j q => s.home j = some t → q ≠ .unborn) (fun hi => ?_) (h.born t)
    refine hok.born.resolve_right fun hnone => ?_
    rw [hi] at hnone
    cases hnone
  · intro t ht
    rw [hm.thread]
    exact h.thread t (hm.taskCount ▸ ht)
  · rw [hm.taskCount]
    exact hplaces (fun _ q => q.Below s.taskCount) hok.below h.below
  · rw [hm.home]
    exact hplaces (fun j q => q.NextOk (s.home j)) hok.next h.next
  · intro t
    rw [hm.children, hm.taskCount]
    exact h.children t
  · rw [hm.captured, hm.taskCount]
    exact h.captured
  · intro t ht
    rw [hm.taskCount] at ht
    exact (h.phases t ht).move (hm.same t) (fun p _ hp => hm.children p ▸ hp) hm.place (hok.left t)
      (hok.entered t)
  · intro t ht
    rw [hm.taskCount] at ht
    exact (h.live t ht).moves hm hok

theorem moves_setPlace (s : World V) (i : ThreadId) (p : Place V) : Moves s i p (s.setPlace i p) :=
  ⟨rfl, fun _ => .refl _, fun _ => rfl, fun _ => rfl, fun _ h => .inl h, rfl, rfl, rfl⟩

theorem setTask_cases {P : TaskId → Task V → Prop} {x} (ht : P t x) (hall : ∀ u, P u (s.tasks u)) :
    ∀ u, P u ((s.setTask t x).tasks u) := by
  intro u
  show P u (update s.tasks t x u)
  by_cases hut : u = t
  · subst hut
    rwa [update_self]
  · rw [update_of_ne hut]
    exact hall u

theorem moves_setTask {x} (hsame : SameTask (s.tasks t) x)
    (hchildren : x.children = (s.tasks t).children) (hthread : x.thread = (s.tasks t).thread)
    (hinside : (s.tasks t).inside = true → x.inside = true ∨ ∃ next, p = .checking t next) :
    Moves s i p ((s.setTask t x).setPlace i p) where
  place := rfl
  same := setTask_cases (P := fun u y => SameTask (s.tasks u) y) hsame fun _ => .refl _
  children := setTask_cases (P := fun u y => y.children = (s.tasks u).children) hchildren
    fun _ => rfl
  thread := setTask_cases (P := fun u y => y.thread = (s.tasks u).thread) hthread fun _ => rfl
  inside := setTask_cases (P := fun u y => (s.tasks u).inside = true →
    y.inside = true ∨ ∃ next, p = .checking u next) hinside fun _ => .inl
  home := rfl
  taskCount := rfl
  captured := rfl

theorem Inv.setField (h : Inv s) {x} (hsame : SameTask (s.tasks t) x)
    (hchildren : x.children = (s.tasks t).children) (hthread : x.thread = (s.tasks t).thread)
    (hinside : x.inside = (s.tasks t).inside) : Inv (s.setTask t x) := by
  have htasks := setTask_cases (s := s) (t := t) (x := x)
    (P := fun u y => SameTask (s.tasks u) y ∧ y.children = (s.tasks u).children ∧
      y.thread = (s.tasks u).thread ∧ y.inside = (s.tasks u).inside)
    ⟨hsame, hchildren, hthread, hinside⟩ fun u => ⟨.refl _, rfl, rfl, rfl⟩
  refine ⟨?_, h.born, ?_, h.below, h.next, ?_, h.captured, ?_, ?_⟩
  · intro u i
    rw [(htasks u).2.2.1]
    exact h.home u i
  · intro u hu
    rw [(htasks u).2.2.1]
    exact h.thread u hu
  · intro u
    rw [(htasks u).2.1]
    exact h.children u
  · intro u hu
    exact (h.phases u hu).mono (htasks u).1 (fun p _ hp => (htasks p).2.1 ▸ hp)
      (fun _ _ hi => .inr hi) fun _ _ hi _ => hi
  · intro u hu i hi hrunning
    rw [(htasks u).1.state] at hrunning
    rw [(htasks u).2.2.2]
    exact h.live u hu i hi hrunning

end MitScheme.Runtime.TaskSettle
