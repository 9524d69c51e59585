import MitScheme.Runtime.TaskSettleStages

/-! # Tasks are settled once

Every step keeps the invariant, and a task that has been settled as it is. -/

namespace MitScheme.Runtime.TaskSettle
open Lib.Machine Function
open TaskGroup (TaskId TaskState)

variable {V : Type} {exited : TaskId → V} {s s' : World V} {t : TaskId} {i : ThreadId}
  {p : Place V}

/-! ## Steps -/

structure Left (s : World V) (i : ThreadId) : Prop where
  stage : ∀ t stage, (s.place i).stage = some (t, stage) → stage.busy = false
  starting : ∀ t, s.place i = .starting t → (s.tasks t).state ≠ .running
  aborts : ∀ t, (s.place i).aborts t = true → (s.tasks t).state ≠ .running

theorem left_of_leavable (h : s.leavable (s.place i) = true) : Left s i := by
  cases hp : s.place i with rw [hp] at h
  | starting t =>
    refine ⟨?_, ?_, ?_⟩ <;> rw [hp]
    · exact nofun
    · rintro u ⟨⟩
      exact of_decide_eq_true h
    · exact nofun
  | checking t next =>
    refine ⟨?_, ?_, ?_⟩ <;> rw [hp]
    · exact nofun
    · exact nofun
    · intro u hu
      obtain rfl : t = u := of_decide_eq_true hu
      exact of_decide_eq_true h
  | finishing t stage =>
    refine ⟨?_, ?_, ?_⟩ <;> rw [hp]
    · rintro u st ⟨⟩
      exact Bool.not_eq_true' _ ▸ h
    · exact nofun
    · exact nofun
  | aborting t stage next =>
    refine ⟨?_, ?_, ?_⟩ <;> rw [hp]
    · rintro u st ⟨⟩
      cases stage with
      | locking failed result => rfl
      | _ => exact Bool.not_eq_true' _ ▸ h
    · exact nofun
    · intro u hu
      cases stage with
      | locking failed result =>
        obtain rfl : t = u := of_decide_eq_true hu
        exact of_decide_eq_true h
      | _ => cases hu
  | _ => refine ⟨?_, ?_, ?_⟩ <;> rw [hp] <;> exact nofun

theorem Left.moveOk (h : Left s i) (hbelow : p.Below s.taskCount) (hnext : p.NextOk (s.home i))
    (hborn : p ≠ .unborn ∨ s.home i = none) (hstage : p.stage = none)
    (hdead : p = .dead → ∀ t, s.home i = some t → (s.tasks t).state = .running →
      (s.tasks t).inside = false) : MoveOk s i p s' where
  below := hbelow
  next := hnext
  born := hborn
  left := h.stage
  entered t stage hp := by
    rw [hstage] at hp
    cases hp
  starting t ht hrunning := absurd hrunning (h.starting t ht)
  aborts t ht hrunning := absurd hrunning (h.aborts t ht)
  dead := hdead

theorem Place.ne_of_plain (h : p.isPlain = true) : p ≠ .unborn ∧ p ≠ .dead := by
  constructor <;> rintro rfl <;> cases h

theorem Inv.goTo (h : Inv s) (hleft : Left s i) (hbelow : p.Below s.taskCount)
    (hplain : p.isPlain = true) : Inv (s.goTo i p) := by
  obtain ⟨hborn, hdead⟩ := Place.ne_of_plain hplain
  have hok : ∀ s', MoveOk s i p s' := fun s' => hleft.moveOk hbelow (Place.nextOk_of_plain hplain _)
    (.inl hborn) (Place.stage_of_plain hplain) fun heq => absurd heq hdead
  rw [World.goTo]
  cases hspace : p.space with
  | none => exact h.moves (moves_setPlace s i p) (hok _)
  | some t =>
    have ht : t < s.taskCount := by
      cases p with
      | outside space =>
        cases hspace
        exact hbelow
      | starting u =>
        cases hspace
        exact hbelow
      | body u =>
        cases hspace
        exact hbelow
      | _ => cases hplain
    show Inv (if p.inExtent = true then _ else _)
    split
    · exact h.moves (moves_setTask ⟨rfl, rfl, rfl, rfl, rfl, rfl, rfl⟩ rfl rfl fun _ => .inl rfl)
        (hok _)
    · split
      · refine h.moves (moves_setTask ⟨rfl, rfl, rfl, rfl, rfl, rfl, rfl⟩ rfl rfl
          fun _ => .inr ⟨p, rfl⟩) ?_
        exact hleft.moveOk ⟨ht, hbelow⟩ (.inl hplain) (.inl nofun) rfl nofun
      · exact h.moves (moves_setPlace s i p) (hok _)

theorem Inv.exit (h : Inv s) (hleft : Left s i) : Inv (s.exit i) := by
  rw [World.exit]
  cases hhome : s.home i with
  | none =>
    refine h.moves (moves_setPlace s i _) (hleft.moveOk trivial trivial (.inr hhome) rfl ?_)
    intro _ t ht
    rw [hhome] at ht
    cases ht
  | some t =>
    have hlt : t < s.taskCount := by
      by_contra hge
      have hthread := (h.home t i).mpr hhome
      rw [h.thread t (Nat.le_of_not_lt hge)] at hthread
      cases hthread
    show Inv (if (s.tasks t).inside = true then _ else _)
    split
    case isTrue hinside =>
      refine h.moves (moves_setTask ⟨rfl, rfl, rfl, rfl, rfl, rfl, rfl⟩ rfl rfl
        fun _ => .inr ⟨.dead, rfl⟩) ?_
      exact hleft.moveOk ⟨hlt, trivial⟩ (.inr ⟨rfl, hhome⟩) (.inl nofun) rfl nofun
    case isFalse hinside =>
      refine h.moves (moves_setPlace s i _) (hleft.moveOk trivial trivial (.inl nofun) rfl ?_)
      intro _ u hu _
      rw [hhome] at hu
      cases hu
      exact Bool.not_eq_true _ ▸ hinside

theorem Inv.goNext (h : Inv s) (hstate : (s.tasks t).state ≠ .running) {next}
    (hnext : next.isPlain = true ∨ (next = .dead ∧ s.home i = some t))
    (hbelow : next.Below s.taskCount) (hleft : Left s i) : Inv (s.setPlace i next) := by
  refine h.moves (moves_setPlace s i next) ?_
  rcases hnext with hplain | ⟨rfl, hhome⟩
  · obtain ⟨hborn, hdead⟩ := Place.ne_of_plain hplain
    exact hleft.moveOk hbelow (Place.nextOk_of_plain hplain _) (.inl hborn)
      (Place.stage_of_plain hplain) fun heq => absurd heq hdead
  · refine hleft.moveOk hbelow trivial (.inl nofun) rfl fun _ u hu hrunning => ?_
    rw [hhome] at hu
    cases hu
    exact absurd hrunning hstate

theorem Inv.step (h : Inv s) {action} (horderly : orderly s action = true)
    (hstep : step exited s action = some s') : Inv s' := by
  cases action with simp only [TaskSettle.step] at hstep
  | createThread i =>
    split at hstep
    case h_1 hi =>
      cases hstep
      refine h.moves (moves_setPlace s i _) ?_
      have hleft : Left s i := by
        refine ⟨?_, ?_, ?_⟩ <;> rw [hi] <;> exact nofun
      exact hleft.moveOk trivial trivial (.inl nofun) rfl nofun
    case h_2 => cases hstep
  | newTask parent finishHook =>
    split at hstep
    case isTrue hparent =>
      cases hstep
      exact h.newTask hparent
    case isFalse => cases hstep
  | createTaskThread t i =>
    split at hstep
    case h_1 hi ht =>
      split at hstep
      case isTrue hlt =>
        cases hstep
        exact h.createTaskThread hi ht hlt
      case isFalse => cases hstep
    case h_2 => cases hstep
  | enter i =>
    split at hstep
    case h_1 t hi =>
      cases hstep
      refine h.moves (moves_setTask ⟨rfl, rfl, rfl, rfl, rfl, rfl, rfl⟩ rfl rfl fun _ => .inl rfl) ?_
      refine ⟨(hi ▸ h.below i : Place.Below _ (.starting t)), trivial, .inl nofun, ?_, nofun, ?_, ?_,
        nofun⟩
      · rw [hi]
        exact nofun
      · intro u hu _
        rw [hi] at hu
        cases hu
        exact ⟨congrArg Task.inside (setTask_self s t _), nofun⟩
      · rw [hi]
        exact nofun
    case h_2 => cases hstep
  | finish i failed value =>
    split at hstep
    case h_1 t hi =>
      cases hstep
      refine h.moves (moves_setPlace s i _) ?_
      refine ⟨(hi ▸ h.below i : Place.Below _ (.body t)), trivial, .inl nofun, ?_, ?_, ?_, ?_, nofun⟩
      · rw [hi]
        exact nofun
      · rintro u st ⟨⟩
        rfl
      · rw [hi]
        exact nofun
      · rw [hi]
        exact nofun
    case h_2 => cases hstep
  | settle i =>
    split at hstep
    case h_1 t failed result hi =>
      cases hstep
      rw [orderly, hi] at horderly
      exact h.settle hi (of_decide_eq_true horderly)
    case h_2 => cases hstep
  | removeChild i =>
    split at hstep
    case h_1 t waiters hi =>
      cases hstep
      exact h.removeChild hi
    case h_2 => cases hstep
  | runHook i =>
    split at hstep
    case h_1 t waiters hi =>
      cases hstep
      exact h.runHook hi
    case h_2 => cases hstep
  | wake i =>
    split at hstep
    case h_1 t u waiters hi =>
      cases hstep
      exact h.wake hi
    case h_2 => cases hstep
  | leave i =>
    split at hstep
    case h_1 t hi =>
      cases hstep
      have hbelow : t < s.taskCount := (hi ▸ h.below i : Place.Below _ (.finishing t (.hooked [])))
      refine h.goTo ?_ hbelow rfl
      refine ⟨?_, ?_, ?_⟩ <;> rw [hi]
      · rintro u st ⟨⟩
        rfl
      · exact nofun
      · exact nofun
    case h_2 t next hi =>
      cases hstep
      have hbelow : Place.Below s.taskCount (.aborting t (.hooked []) next) := hi ▸ h.below i
      have hnext : Place.NextOk (s.home i) (.aborting t (.hooked []) next) := hi ▸ h.next i
      have hstage : (s.place i).stage = some (t, .hooked []) := hi ▸ rfl
      refine h.goNext ((h.phases t hbelow.1).others hstage rfl).1 hnext hbelow.2 ?_
      refine ⟨?_, ?_, ?_⟩ <;> rw [hi]
      · rintro u st ⟨⟩
        rfl
      · exact nofun
      · exact nofun
    case h_3 => cases hstep
  | check i =>
    split at hstep
    case h_1 t next hi =>
      have hbelow : Place.Below s.taskCount (.checking t next) := hi ▸ h.below i
      have hnext : Place.NextOk (s.home i) (.checking t next) := hi ▸ h.next i
      cases hstep
      split
      case isTrue hrunning =>
        refine h.moves (moves_setPlace s i _) ⟨hbelow, hnext, .inl nofun, ?_, ?_, ?_, ?_, nofun⟩
        · rw [hi]
          exact nofun
        · rintro u st ⟨⟩
          rfl
        · rw [hi]
          exact nofun
        · intro u hu _
          rw [hi] at hu
          exact hu
      case isFalse hstate =>
        refine h.goNext hstate hnext hbelow.2 ?_
        refine ⟨?_, ?_, ?_⟩ <;> rw [hi]
        · exact nofun
        · exact nofun
        · intro u hu
          obtain rfl : t = u := of_decide_eq_true hu
          exact hstate
    case h_2 => cases hstep
  | cut i n => cases horderly
  | capture i =>
    cases hstep
    refine ⟨h.home, h.born, h.thread, h.below, h.next, h.children, ?_, fun t ht => ?_, h.live⟩
    · intro p hp
      rcases List.mem_append.mp hp with hp | hp
      · exact h.captured p hp
      · obtain rfl := List.mem_singleton.mp hp
        exact h.below i
    · exact (h.phases t ht).mono (.refl _) (fun _ _ hp => hp) (fun _ _ hi => .inr hi)
        fun _ _ hi _ => hi
  | invoke i k =>
    obtain ⟨hleave, hplain⟩ := Bool.and_eq_true_iff.mp horderly
    split at hstep
    case h_1 => cases hstep
    case h_2 => cases hstep
    case h_3 =>
      obtain ⟨p, hp, rfl⟩ := Option.map_eq_some_iff.mp hstep
      rw [hp] at hplain
      exact h.goTo (left_of_leavable hleave) (h.captured p (List.mem_of_getElem? hp)) hplain
  | exit i =>
    split at hstep
    case h_1 => cases hstep
    case h_2 => cases hstep
    case h_3 =>
      cases hstep
      exact h.exit (left_of_leavable horderly)
  | addWaiter | removeWaiter | cancel | setCancelHandlers =>
    split at hstep <;> cases hstep
    exact h.setField ⟨rfl, rfl, rfl, rfl, rfl, rfl, rfl⟩ rfl rfl rfl

theorem inv_start : Inv (World.start : World V) := by
  have hstage : ∀ i, ((World.start : World V).place i).stage = none ∧
      ((World.start : World V).place i).Below 0 ∧
      ∀ home, ((World.start : World V).place i).NextOk home := by
    intro i
    by_cases hi : i = 0
    · subst hi
      exact ⟨rfl, trivial, fun _ => trivial⟩
    · have hplace : (World.start : World V).place i = .unborn := by
        show update (fun _ => Place.unborn) 0 (Place.outside none) i = _
        rw [update_of_ne hi]
      rw [hplace]
      exact ⟨rfl, trivial, fun _ => trivial⟩
  refine ⟨fun t i => ⟨nofun, nofun⟩, nofun, fun t _ => rfl, fun i => (hstage i).2.1,
    fun i => (hstage i).2.2 _, nofun, nofun, ?_, ?_⟩
  · exact fun t ht => absurd ht (Nat.not_lt_zero t)
  · exact fun t ht => absurd ht (Nat.not_lt_zero t)

/-! ## The state and the result -/

def Kept (x x' : Task V) : Prop := x'.state = x.state ∧ x'.result = x.result

theorem kept_update (tasks : TaskId → Task V) (u t : TaskId) {x} (hx : Kept (tasks u) x) :
    Kept (tasks t) (update tasks u x t) := by
  by_cases htu : t = u
  · subst htu
    rwa [update_self]
  · rw [update_of_ne htu]
    exact ⟨rfl, rfl⟩

theorem kept_goTo (s : World V) (i : ThreadId) (p : Place V) (t : TaskId) :
    Kept (s.tasks t) ((s.goTo i p).tasks t) := by
  rw [World.goTo]
  cases p.space with
  | none => exact ⟨rfl, rfl⟩
  | some u =>
    show Kept _ ((if p.inExtent = true then _ else _ : World V).tasks t)
    split
    · exact kept_update s.tasks _ t ⟨rfl, rfl⟩
    · split
      · exact kept_update s.tasks _ t ⟨rfl, rfl⟩
      · exact ⟨rfl, rfl⟩

theorem kept_exit (s : World V) (i : ThreadId) (t : TaskId) :
    Kept (s.tasks t) ((s.exit i).tasks t) := by
  rw [World.exit]
  cases s.home i with
  | none => exact ⟨rfl, rfl⟩
  | some u =>
    show Kept _ ((if (s.tasks u).inside = true then _ else _ : World V).tasks t)
    split
    · exact kept_update s.tasks _ t ⟨rfl, rfl⟩
    · exact ⟨rfl, rfl⟩

theorem kept_removeChild (s : World V) (u t : TaskId) :
    Kept (s.tasks t) ((s.removeChild u).tasks t) := by
  rw [World.removeChild]
  cases (s.tasks u).parent with
  | none => exact ⟨rfl, rfl⟩
  | some p => exact kept_update s.tasks _ t ⟨rfl, rfl⟩

theorem kept_newTask (s : World V) (parent : Option TaskId) (finishHook : Bool)
    (ht : t < s.taskCount) : Kept (s.tasks t) ((s.newTask parent finishHook).tasks t) := by
  cases parent with
  | none =>
    show Kept _ (update s.tasks _ _ t)
    rw [update_of_ne (Nat.ne_of_lt ht)]
    exact ⟨rfl, rfl⟩
  | some p =>
    show Kept _ (update (update s.tasks p _) _ _ t)
    rw [update_of_ne (Nat.ne_of_lt ht)]
    refine kept_update s.tasks p t ?_
    split <;> exact ⟨rfl, rfl⟩

theorem taskCount_goTo (s : World V) (i p) : (s.goTo i p).taskCount = s.taskCount := by
  rw [World.goTo]
  cases p.space with
  | none => rfl
  | some u =>
    show (if p.inExtent = true then _ else _ : World V).taskCount = _
    split
    · rfl
    · split <;> rfl

theorem taskCount_exit (s : World V) (i) : (s.exit i).taskCount = s.taskCount := by
  rw [World.exit]
  cases s.home i with
  | none => rfl
  | some u =>
    show (if (s.tasks u).inside = true then _ else _ : World V).taskCount = _
    split <;> rfl

theorem taskCount_removeChild (s : World V) (u) : (s.removeChild u).taskCount = s.taskCount := by
  rw [World.removeChild]
  cases (s.tasks u).parent <;> rfl

theorem step_kept {action} (horderly : orderly s action = true)
    (hstep : step exited s action = some s') (ht : t < s.taskCount)
    (hstate : (s.tasks t).state ≠ .running) : t < s'.taskCount ∧ Kept (s.tasks t) (s'.tasks t) := by
  cases action with simp only [TaskSettle.step] at hstep
  | createThread i =>
    split at hstep <;> cases hstep
    exact ⟨ht, rfl, rfl⟩
  | newTask parent finishHook =>
    split at hstep <;> cases hstep
    refine ⟨?_, kept_newTask s parent finishHook ht⟩
    cases parent <;> exact Nat.lt_succ_of_lt ht
  | createTaskThread u i =>
    split at hstep
    case h_1 =>
      split at hstep <;> cases hstep
      exact ⟨ht, kept_update s.tasks _ t ⟨rfl, rfl⟩⟩
    case h_2 => cases hstep
  | enter i =>
    split at hstep <;> cases hstep
    exact ⟨ht, kept_update s.tasks _ t ⟨rfl, rfl⟩⟩
  | finish i failed value =>
    split at hstep <;> cases hstep
    exact ⟨ht, rfl, rfl⟩
  | settle i =>
    split at hstep
    case h_1 u failed result hi =>
      cases hstep
      rw [orderly, hi] at horderly
      have hrunning : (s.tasks u).state = .running := of_decide_eq_true horderly
      have htu : t ≠ u := by
        rintro rfl
        exact hstate hrunning
      refine ⟨ht, ?_⟩
      show Kept _ ((s.setTask u _).tasks t)
      rw [setTask_of_ne s htu]
      exact ⟨rfl, rfl⟩
    case h_2 => cases hstep
  | removeChild i =>
    split at hstep <;> cases hstep
    exact ⟨(taskCount_removeChild s _).symm ▸ ht, kept_removeChild s _ t⟩
  | runHook i =>
    split at hstep <;> cases hstep
    exact ⟨ht, kept_update s.tasks _ t ⟨rfl, rfl⟩⟩
  | wake i =>
    split at hstep <;> cases hstep
    exact ⟨ht, kept_update s.tasks _ t ⟨rfl, rfl⟩⟩
  | leave i =>
    split at hstep <;> cases hstep
    · exact ⟨(taskCount_goTo s i _).symm ▸ ht, kept_goTo s i _ t⟩
    · exact ⟨ht, rfl, rfl⟩
  | check i =>
    split at hstep <;> cases hstep
    exact ⟨ht, rfl, rfl⟩
  | cut i n => cases horderly
  | capture i =>
    cases hstep
    exact ⟨ht, rfl, rfl⟩
  | invoke i k =>
    split at hstep
    case h_1 => cases hstep
    case h_2 => cases hstep
    case h_3 =>
      obtain ⟨p, -, rfl⟩ := Option.map_eq_some_iff.mp hstep
      exact ⟨(taskCount_goTo s i p).symm ▸ ht, kept_goTo s i p t⟩
  | exit i =>
    split at hstep <;> cases hstep
    exact ⟨(taskCount_exit s i).symm ▸ ht, kept_exit s i t⟩
  | addWaiter u i | removeWaiter u i | cancel u | setCancelHandlers u handlers =>
    split at hstep <;> cases hstep
    exact ⟨ht, kept_update s.tasks _ t ⟨rfl, rfl⟩⟩

theorem run_kept {more} : ∀ {s : World V},
    Along (step exited) (fun s a => orderly s a = true) s more →
    run (step exited) s more = some s' → t < s.taskCount → (s.tasks t).state ≠ .running →
    Kept (s.tasks t) (s'.tasks t) := by
  induction more with
  | nil =>
    intro s _ hrun _ _
    cases hrun
    exact ⟨rfl, rfl⟩
  | cons action more ih =>
    intro s halong hrun ht hstate
    obtain ⟨s1, hs1, hrest⟩ := Option.bind_eq_some_iff.mp hrun
    obtain ⟨ht1, hstate1, hresult1⟩ := step_kept halong.1 hs1 ht hstate
    rw [← hstate1] at hstate
    obtain ⟨hstate', hresult'⟩ := ih (halong.2 s1 hs1) hrest ht1 hstate
    exact ⟨hstate'.trans hstate1, hresult'.trans hresult1⟩

/-! ## Tasks are settled once -/

theorem Phases.hookOnce (h : Phases s t) : (s.tasks t).hookRuns ≤ 1 := by
  have hhooked : Hooked (s.tasks t) → (s.tasks t).hookRuns ≤ 1 := by
    intro hx
    rw [hx]
    split <;> decide
  by_cases hrunning : (s.tasks t).state = .running
  · rw [(h.running hrunning).2.1]
    exact Nat.zero_le 1
  by_cases hbusy : ∀ i stage, (s.place i).stage = some (t, stage) → stage.busy = false
  · exact hhooked (h.done hrunning hbusy).1
  push Not at hbusy
  obtain ⟨i, stage, hi, hne⟩ := hbusy
  have hok := h.stages i stage hi
  cases stage with
  | locking failed result => exact absurd rfl hne
  | cut => exact hok.elim
  | settled waiters => exact hok.1 ▸ Nat.zero_le 1
  | removed waiters => exact hok.1 ▸ Nat.zero_le 1
  | hooked waiters => exact hhooked hok.1

theorem Inv.settles (h : Inv s) (ht : t < s.taskCount) : Settles s t := by
  have hphases := h.phases t ht
  refine ⟨?_, hphases.hookOnce, hphases.removed, ?_, ?_⟩
  · split
    case isTrue hrunning => exact (hphases.running hrunning).1
    case isFalse hstate => exact hphases.settled hstate
  · intro hstate
    by_cases hbusy : ∃ i stage, (s.place i).stage = some (t, stage) ∧ stage.busy = true
    · exact .inl hbusy
    · obtain ⟨hhooked, hwaking⟩ := hphases.done hstate fun i stage hi =>
        Bool.not_eq_true _ ▸ fun hb => hbusy ⟨i, stage, hi, hb⟩
      exact .inr ⟨hhooked, fun u hu => (hwaking u hu).resolve_right List.not_mem_nil⟩
  · intro i hi hdead
    by_cases hrunning : (s.tasks t).state = .running
    · rcases h.live t ht i ((h.home t i).mp hi) hrunning with hstarting | hj | ⟨-, hne⟩
      · rw [hdead] at hstarting
        cases hstarting
      · exact .inr hj
      · exact absurd hdead hne
    · exact .inl hrunning

/-- **A task is settled once.** In a run in which `%finish-task!` is only called with tasks that
run, and which leaves no call of it, its state changes once, with its hook and its waiters. -/
theorem task_settled_once (exited : TaskId → V) (actions : List (Action V))
    (halong : Along (step exited) (fun s a => orderly s a = true) .start actions)
    (hrun : run (step exited) .start actions = some s) (ht : t < s.taskCount) :
    Settles s t ∧ ∀ more s', Along (step exited) (fun s a => orderly s a = true) s more →
      run (step exited) s more = some s' → (s.tasks t).state ≠ .running →
      (s'.tasks t).state = (s.tasks t).state ∧ (s'.tasks t).result = (s.tasks t).result := by
  have h : Inv s := run_invariant (fun hi ho hs => hi.step ho hs) inv_start halong hrun
  exact ⟨h.settles ht, fun more s' halong' hrun' hstate => run_kept halong' hrun' ht hstate⟩

/-- A task of a group whose thunk returns, while the first thread waits for it. -/
theorem task_settled_once_group :
    ∃ s, run (step fun _ => 0) World.start [.newTask none false, .newTask (some 0) true,
        .createTaskThread 1 1, .enter 1, .capture 1, .addWaiter 1 0, .finish 1 false 7, .settle 1,
        .removeChild 1, .runHook 1, .wake 1, .leave 1, .check 1, .exit 1] = some s ∧
      s.place 1 = .dead ∧ (s.tasks 1).result = some 7 ∧ (s.tasks 1).woken = [0] ∧ Settles s 1 := by
  refine ⟨_, rfl, rfl, rfl, rfl, ?_⟩
  exact (task_settled_once (fun _ => 0) [.newTask none false, .newTask (some 0) true,
    .createTaskThread 1 1, .enter 1, .capture 1, .addWaiter 1 0, .finish 1 false 7, .settle 1,
    .removeChild 1, .runHook 1, .wake 1, .leave 1, .check 1, .exit 1] (by decide) rfl (by decide)).1

/-- The first thread invokes a continuation that was captured in the task, after the task has
completed with 1: it completes again, with 2. And a thread event of the second task exits when the
state is set: its hook is not called, and the thread that waits is not woken. -/
theorem tasks_settled_again :
    (∃ s, run (step fun _ => 0) World.start [.newTask none false, .createTaskThread 0 1, .enter 1,
        .capture 1, .finish 1 false 1, .settle 1, .removeChild 1, .runHook 1, .leave 1, .check 1,
        .exit 1] = some s ∧ (s.tasks 0).state = .completed ∧ (s.tasks 0).result = some 1 ∧
      ∃ s', run (step fun _ => 0) s [.invoke 0 0, .finish 0 false 2, .settle 0] = some s' ∧
        (s'.tasks 0).result = some 2 ∧ ¬Settles s' 0) ∧
    ∃ s, run (step fun _ => 0) World.start [.newTask none false, .newTask (some 0) true,
        .createTaskThread 1 1, .enter 1, .addWaiter 1 0, .finish 1 false 7, .settle 1, .exit 1,
        .check 1] = some s ∧
      (∀ i ≤ 1, (s.place i).stage = none) ∧ (s.tasks 1).state = .completed ∧ s.place 1 = .dead ∧
      (s.tasks 1).hookRuns = 0 ∧ (s.tasks 1).registered = [0] ∧ (s.tasks 1).woken = [] := by
  refine ⟨⟨_, rfl, rfl, rfl, _, rfl, rfl, fun h => ?_⟩, ⟨_, rfl, by decide, rfl, rfl, rfl, rfl, rfl⟩⟩
  exact absurd h.once (by decide)

end MitScheme.Runtime.TaskSettle
