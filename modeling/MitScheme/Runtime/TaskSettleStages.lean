import MitScheme.Runtime.TaskSettlePhases

/-! # The next stage

The steps of `%finish-task!`, and new tasks and threads. -/

namespace MitScheme.Runtime.TaskSettle
open Lib.Machine Function
open TaskGroup (TaskId TaskState)

variable {V : Type} {exited : TaskId → V} {s s' : World V} {t : TaskId} {i : ThreadId}
  {p : Place V}

/-! ## A task gets to the next stage -/

structure Advances (s : World V) (i : ThreadId) (t : TaskId) (stage' : Stage V) (s' : World V) :
    Prop where
  place : s'.place = update s.place i ((s.place i).setStage stage')
  same : ∀ u, u ≠ t → SameTask (s.tasks u) (s'.tasks u)
  children : ∀ u, ∀ c ∈ (s'.tasks u).children, c ∈ (s.tasks u).children
  thread : ∀ u, (s'.tasks u).thread = (s.tasks u).thread
  inside : ∀ u, (s'.tasks u).inside = (s.tasks u).inside
  home : s'.home = s.home
  taskCount : s'.taskCount = s.taskCount
  captured : s'.captured = s.captured

theorem Place.setStage_cases {stage} (h : p.stage = some (t, stage)) (stage' : Stage V) :
    (p = .finishing t stage ∧ p.setStage stage' = .finishing t stage') ∨
      ∃ next, p = .aborting t stage next ∧ p.setStage stage' = .aborting t stage' next := by
  cases p with
  | finishing u st =>
    cases h
    exact .inl ⟨rfl, rfl⟩
  | aborting u st next =>
    cases h
    exact .inr ⟨next, rfl, rfl⟩
  | _ => cases h

theorem Inv.advances (h : Inv s) {stage stage'} (ha : Advances s i t stage' s')
    (hi : (s.place i).stage = some (t, stage)) (hphases : Phases s' t)
    (hstate : (s'.tasks t).state ≠ .running) : Inv s' := by
  have hself : s'.place i = (s.place i).setStage stage' := by rw [ha.place, update_self]
  have hother : ∀ j, j ≠ i → s'.place j = s.place j := fun j hj => by
    rw [ha.place, update_of_ne hj]
  have hplaces : ∀ P : ThreadId → Place V → Prop, P i ((s.place i).setStage stage') →
      (∀ j, P j (s.place j)) → ∀ j, P j (s'.place j) := by
    intro P hp hall j
    by_cases hji : j = i
    · subst hji
      rwa [hself]
    · rw [hother j hji]
      exact hall j
  have hcases := Place.setStage_cases hi stage'
  refine ⟨?_, ?_, ?_, ?_, ?_, ?_, ?_, ?_, ?_⟩
  · intro u k
    rw [ha.thread, ha.home]
    exact h.home u k
  · intro u
    rw [ha.home]
    refine hplaces (fun j q => s.home j = some u → q ≠ .unborn) ?_ (h.born u)
    rcases hcases with ⟨-, heq⟩ | ⟨next, -, heq⟩ <;> rw [heq] <;> exact fun _ hq => by cases hq
  · intro u hu
    rw [ha.thread]
    exact h.thread u (ha.taskCount ▸ hu)
  · rw [ha.taskCount]
    refine hplaces (fun _ q => q.Below s.taskCount) ?_ h.below
    have hbelow := h.below i
    rcases hcases with ⟨hp, heq⟩ | ⟨next, hp, heq⟩
    · rw [hp] at hbelow
      rw [heq]
      exact hbelow
    · rw [hp] at hbelow
      rw [heq]
      exact hbelow
  · rw [ha.home]
    refine hplaces (fun j q => q.NextOk (s.home j)) ?_ h.next
    have hnext := h.next i
    rcases hcases with ⟨hp, heq⟩ | ⟨next, hp, heq⟩
    · rw [heq]
      trivial
    · rw [hp] at hnext
      rw [heq]
      exact hnext
  · intro u c hc
    rw [ha.taskCount]
    exact h.children u c (ha.children u c hc)
  · rw [ha.captured, ha.taskCount]
    exact h.captured
  · intro u hu
    rw [ha.taskCount] at hu
    by_cases hut : u = t
    · exact hut ▸ hphases
    · refine (h.phases u hu).move (ha.same u hut) (fun p _ => ha.children p u) ha.place ?_ ?_
      · intro st hst
        rw [hi] at hst
        cases hst
        exact absurd rfl hut
      · intro st hst
        rw [Place.stage_setStage hi] at hst
        cases hst
        exact absurd rfl hut
  · intro u hu k hk hrunning
    rw [ha.taskCount] at hu
    by_cases hut : u = t
    · exact absurd hrunning (hut ▸ hstate)
    · rw [ha.home] at hk
      rw [(ha.same u hut).state] at hrunning
      rw [ha.inside]
      refine (h.live u hu k hk hrunning).imp ?_ (Or.imp ?_ (And.imp_right ?_))
      · intro hstarting
        have hki : k ≠ i := by
          rintro rfl
          rw [hstarting] at hi
          cases hi
        rw [hother k hki, hstarting]
      · rintro ⟨j, hj⟩
        have hji : j ≠ i := by
          rintro rfl
          rcases hcases with ⟨hp, -⟩ | ⟨next, hp, -⟩
          · rw [hp] at hj
            cases hj
          · rw [hp] at hj
            cases stage with
            | locking failed result => exact hut (of_decide_eq_true hj).symm
            | _ => cases hj
        exact ⟨j, (hother j hji).symm ▸ hj⟩
      · intro hnot
        by_cases hki : k = i
        · subst hki
          rw [hself]
          rcases hcases with ⟨-, heq⟩ | ⟨next, -, heq⟩ <;> rw [heq] <;> exact fun hq => by cases hq
        · rw [hother k hki]
          exact hnot

theorem setTask_self (s : World V) (t : TaskId) (x : Task V) : (s.setTask t x).tasks t = x :=
  update_self ..

theorem setTask_of_ne (s : World V) {u} (h : u ≠ t) (x : Task V) :
    (s.setTask t x).tasks u = s.tasks u :=
  update_of_ne h ..

theorem Removed.setTask (h : Removed s t) {x} (hparent : x.parent = (s.tasks t).parent)
    (hchildren : x.children = (s.tasks t).children) : Removed (s.setTask t x) t := by
  refine h.mono (by rw [setTask_self, hparent]) fun p _ => ?_
  by_cases hpt : p = t
  · subst hpt
    rw [setTask_self, hchildren]
    exact id
  · rw [setTask_of_ne s hpt]
    exact id

theorem advances_setTask {stage' x} (hchildren : x.children = (s.tasks t).children)
    (hthread : x.thread = (s.tasks t).thread) (hinside : x.inside = (s.tasks t).inside) :
    Advances s i t stage' ((s.setTask t x).setPlace i ((s.place i).setStage stage')) where
  place := rfl
  same u hut := by
    show SameTask _ ((s.setTask t x).tasks u)
    rw [setTask_of_ne s hut]
    exact .refl _
  children := setTask_cases (P := fun u y => ∀ c ∈ y.children, c ∈ (s.tasks u).children)
    (fun _ hc => hchildren ▸ hc) fun _ _ hc => hc
  thread := setTask_cases (P := fun u y => y.thread = (s.tasks u).thread) hthread fun _ => rfl
  inside := setTask_cases (P := fun u y => y.inside = (s.tasks u).inside) hinside fun _ => rfl
  home := rfl
  taskCount := rfl
  captured := rfl

theorem outcome_ne_running (failed : Bool) : outcome failed ≠ .running := by
  cases failed <;> decide

section Stages

variable {failed : Bool} {result : V} {waiters : List ThreadId}

theorem Inv.settle (h : Inv s) (hi : (s.place i).stage = some (t, .locking failed result))
    (hrunning : (s.tasks t).state = .running) :
    Inv ((s.setTask t ((s.tasks t).assignments (outcome failed) result 4)).setPlace i
      ((s.place i).setStage (.settled (s.tasks t).waiters))) := by
  obtain ⟨hchanges, hhook, hlocking⟩ := (h.phases t ((h.below i).stage hi)).running hrunning
  have hx := setTask_self s t ((s.tasks t).assignments (outcome failed) result 4)
  have hstate : ((s.setTask t ((s.tasks t).assignments (outcome failed) result 4)).tasks t).state ≠
      .running := by
    rw [hx]
    exact outcome_ne_running failed
  refine h.advances (advances_setTask rfl rfl rfl) hi ?_ hstate
  refine phases_advance hi rfl (fun j st _ => hlocking j st) hstate ?_ ?_ nofun ?_
  · show ((s.setTask t _).tasks t).changes = 1
    rw [hx]
    exact congrArg (· + 1) hchanges
  · refine ⟨(congrArg Task.hookRuns hx).trans hhook, ?_⟩
    show Waking ((s.setTask t _).tasks t) _
    rw [hx]
    intro u hu
    have hwaiters : ((s.tasks t).assignments (outcome failed) result 4).registered =
        (s.tasks t).waiters := if_pos hchanges
    rw [hwaiters] at hu
    exact .inr hu
  · intro hpos
    rw [show ((s.setTask t _).setPlace i _).tasks t = _ from hx] at hpos
    exact absurd hhook (Nat.ne_of_gt hpos)

theorem Inv.removeChild (h : Inv s) (hi : (s.place i).stage = some (t, .settled waiters)) :
    Inv ((s.removeChild t).setPlace i ((s.place i).setStage (.removed waiters))) := by
  have hphases := h.phases t ((h.below i).stage hi)
  obtain ⟨hstate, hothers⟩ := hphases.others hi rfl
  obtain ⟨hhook, hwaking⟩ := hphases.stages i _ hi
  have htasks : ∀ u, SameTask (s.tasks u) ((s.removeChild t).tasks u) ∧
      (∀ c ∈ ((s.removeChild t).tasks u).children, c ∈ (s.tasks u).children) ∧
      ((s.removeChild t).tasks u).thread = (s.tasks u).thread ∧
      ((s.removeChild t).tasks u).inside = (s.tasks u).inside := by
    rw [World.removeChild]
    cases (s.tasks t).parent with
    | none => exact fun u => ⟨.refl _, fun _ hc => hc, rfl, rfl⟩
    | some p =>
      exact setTask_cases (P := fun u y => SameTask (s.tasks u) y ∧
          (∀ c ∈ y.children, c ∈ (s.tasks u).children) ∧ y.thread = (s.tasks u).thread ∧
          y.inside = (s.tasks u).inside)
        ⟨⟨rfl, rfl, rfl, rfl, rfl, rfl, rfl⟩, fun c hc => List.mem_of_mem_filter hc, rfl, rfl⟩
        fun u => ⟨.refl _, fun _ hc => hc, rfl, rfl⟩
  have hremoved : Removed (s.removeChild t) t := by
    intro p hp
    rw [(htasks t).1.parent] at hp
    rw [World.removeChild, Option.mem_def.mp hp]
    show t ∉ ((s.setTask p _).tasks p).children
    rw [setTask_self]
    exact fun hmem => of_decide_eq_true (List.mem_filter.mp hmem).2 rfl
  have hrest : (s.removeChild t).place = s.place ∧ (s.removeChild t).home = s.home ∧
      (s.removeChild t).taskCount = s.taskCount ∧ (s.removeChild t).captured = s.captured := by
    rw [World.removeChild]
    cases (s.tasks t).parent <;> exact ⟨rfl, rfl, rfl, rfl⟩
  have hplace : ((s.removeChild t).setPlace i ((s.place i).setStage (.removed waiters))).place =
      update s.place i ((s.place i).setStage (.removed waiters)) :=
    congrArg (update · i _) hrest.1
  have hstate' : ((s.removeChild t).tasks t).state ≠ .running := by rwa [(htasks t).1.state]
  have hhook' : ((s.removeChild t).tasks t).hookRuns = 0 := (htasks t).1.hookRuns.trans hhook
  refine h.advances ⟨hplace, fun u _ => (htasks u).1, fun u => (htasks u).2.1,
    fun u => (htasks u).2.2.1, fun u => (htasks u).2.2.2, hrest.2.1, hrest.2.2.1, hrest.2.2.2⟩ hi
    ?_ hstate'
  refine phases_advance hi hplace hothers hstate'
    ((htasks t).1.changes.trans (hphases.settled hstate)) ?_ nofun ?_
  · exact ⟨hhook', (htasks t).1.waking.mpr hwaking, hremoved⟩
  · exact fun hpos => absurd hhook' (Nat.ne_of_gt hpos)

theorem waking_nil {x : Task V} (h : Waking x waiters)
    (hbusy : (Stage.hooked (V := V) waiters).busy = false) : Waking x [] := by
  cases waiters with
  | nil => exact h
  | cons u waiters => cases hbusy

theorem Inv.toHooked (h : Inv s) {stage : Stage V} (hi : (s.place i).stage = some (t, stage))
    (hnot : stage.isLocking = false) {x : Task V} (hstate : x.state = (s.tasks t).state)
    (hchanges : x.changes = (s.tasks t).changes) (hparent : x.parent = (s.tasks t).parent)
    (hchildren : x.children = (s.tasks t).children) (hthread : x.thread = (s.tasks t).thread)
    (hinside : x.inside = (s.tasks t).inside) (hhooked : Hooked x) (hwaking : Waking x waiters)
    (hremoved : Removed s t) :
    Inv ((s.setTask t x).setPlace i ((s.place i).setStage (.hooked waiters))) := by
  have hphases := h.phases t ((h.below i).stage hi)
  obtain ⟨hrunning, hothers⟩ := hphases.others hi hnot
  have hself := setTask_self s t x
  have hremoved' : Removed (s.setTask t x) t := hremoved.setTask hparent hchildren
  rw [← hstate] at hrunning
  rw [← hself] at hrunning hhooked hwaking hchanges
  refine h.advances (advances_setTask hchildren hthread hinside) hi ?_ hrunning
  refine phases_advance hi rfl hothers hrunning (hchanges.trans (hphases.settled ?_))
    ⟨hhooked, hwaking, hremoved'⟩ (fun hbusy => ⟨hhooked, waking_nil hwaking hbusy⟩)
    fun _ => hremoved'
  rwa [hself, hstate] at hrunning

theorem Inv.runHook (h : Inv s) (hi : (s.place i).stage = some (t, .removed waiters)) :
    Inv ((s.setTask t { s.tasks t with
        hookRuns := if (s.tasks t).finishHook then (s.tasks t).hookRuns + 1
          else (s.tasks t).hookRuns }).setPlace i ((s.place i).setStage (.hooked waiters))) := by
  obtain ⟨hhook, hwaking, hremoved⟩ := (h.phases t ((h.below i).stage hi)).stages i _ hi
  refine h.toHooked hi rfl rfl rfl rfl rfl rfl rfl ?_ hwaking hremoved
  rw [Hooked, hhook]

theorem Inv.wake (h : Inv s) {u} (hi : (s.place i).stage = some (t, .hooked (u :: waiters))) :
    Inv ((s.setTask t { s.tasks t with woken := u :: (s.tasks t).woken }).setPlace i
      ((s.place i).setStage (.hooked waiters))) := by
  obtain ⟨hhooked, hwaking, hremoved⟩ := (h.phases t ((h.below i).stage hi)).stages i _ hi
  refine h.toHooked hi rfl rfl rfl rfl rfl rfl rfl hhooked ?_ hremoved
  intro v hv
  rcases hwaking v hv with hw | hw
  · exact .inl (List.mem_cons_of_mem u hw)
  · rcases List.mem_cons.mp hw with rfl | hw
    · exact .inl List.mem_cons_self
    · exact .inr hw

end Stages

/-! ## New tasks and threads -/

theorem Inv.home_none (h : Inv s) (hi : s.place i = .unborn) : s.home i = none := by
  cases hhome : s.home i with
  | none => rfl
  | some t => exact absurd hi (h.born t i hhome)

structure Extends (s s' : World V) : Prop where
  new : s'.tasks s.taskCount = newTask (s'.tasks s.taskCount).parent
    (s'.tasks s.taskCount).finishHook (s'.tasks s.taskCount).cancelled
  old : ∀ u < s.taskCount, SameTask (s.tasks u) (s'.tasks u) ∧
    (s'.tasks u).thread = (s.tasks u).thread ∧ (s'.tasks u).inside = (s.tasks u).inside
  thread : ∀ u, s.taskCount ≤ u → (s'.tasks u).thread = none
  children : ∀ u, ∀ c ∈ (s'.tasks u).children, c = s.taskCount ∨ c ∈ (s.tasks u).children
  place : s'.place = s.place
  home : s'.home = s.home
  taskCount : s'.taskCount = s.taskCount + 1
  captured : s'.captured = s.captured

theorem Inv.extends (h : Inv s) (he : Extends s s') : Inv s' := by
  have hcases : ∀ u < s.taskCount + 1, u < s.taskCount ∨ u = s.taskCount := fun u hu =>
    Nat.lt_or_eq_of_le (Nat.le_of_lt_succ hu)
  have hle : s.taskCount ≤ s.taskCount + 1 := Nat.le_succ _
  have hfresh : ∀ i, s.home i ≠ some s.taskCount := by
    intro i hi
    have hthread := (h.home _ i).mpr hi
    rw [h.thread _ (Nat.le_refl _)] at hthread
    cases hthread
  have hthreads : ∀ u, (s'.tasks u).thread = (s.tasks u).thread := by
    intro u
    by_cases hu : u < s.taskCount
    · exact (he.old u hu).2.1
    · rw [he.thread u (Nat.le_of_not_lt hu), h.thread u (Nat.le_of_not_lt hu)]
  refine ⟨?_, ?_, ?_, ?_, ?_, ?_, ?_, ?_, ?_⟩
  · intro u i
    rw [hthreads, he.home]
    exact h.home u i
  · rw [he.home, he.place]
    exact h.born
  · intro u hu
    rw [he.taskCount] at hu
    exact he.thread u (Nat.le_of_succ_le hu)
  · rw [he.place, he.taskCount]
    exact fun i => (h.below i).mono hle
  · rw [he.place, he.home]
    exact h.next
  · intro u c hc
    rw [he.taskCount]
    rcases he.children u c hc with rfl | hc
    · exact Nat.lt_succ_self _
    · exact Nat.lt_succ_of_lt (h.children u c hc)
  · rw [he.captured, he.taskCount]
    exact fun p hp => (h.captured p hp).mono hle
  · intro u hu
    rw [he.taskCount] at hu
    rcases hcases u hu with hu | rfl
    · refine (h.phases u hu).mono (he.old u hu).1 ?_ ?_ ?_
      · exact fun p _ hp => (he.children p u hp).resolve_left (Nat.ne_of_lt hu)
      · rw [he.place]
        exact fun _ _ hi => .inr hi
      · rw [he.place]
        exact fun _ _ hi _ => hi
    · have hnone : ∀ i stage, (s'.place i).stage ≠ some (s.taskCount, stage) := by
        intro i stage hi
        rw [he.place] at hi
        exact Nat.lt_irrefl _ ((h.below i).stage hi)
      have hrunning : (s'.tasks s.taskCount).state = .running := by rw [he.new]; rfl
      have hhook : (s'.tasks s.taskCount).hookRuns = 0 := by rw [he.new]; rfl
      refine ⟨fun _ => ⟨by rw [he.new]; rfl, hhook, ?_⟩, ?_, ?_, ?_, ?_, ?_⟩
      · exact fun i stage hi => absurd hi (hnone i stage)
      · exact fun hne => absurd hrunning hne
      · exact fun i j stage stage' hi => absurd hi (hnone i stage)
      · exact fun i stage hi => absurd hi (hnone i stage)
      · exact fun hne => absurd hrunning hne
      · exact fun hpos => absurd hhook (Nat.ne_of_gt hpos)
  · intro u hu i hi hrunning
    rw [he.taskCount] at hu
    rw [he.home] at hi
    rw [he.place]
    rcases hcases u hu with hu | rfl
    · rw [(he.old u hu).1.state] at hrunning
      rw [(he.old u hu).2.2]
      exact h.live u hu i hi hrunning
    · exact absurd hi (hfresh i)

theorem Inv.newTask (h : Inv s) {parent finishHook} (hparent : ∀ p ∈ parent, p < s.taskCount) :
    Inv (s.newTask parent finishHook) := by
  refine h.extends ?_
  cases parent with
  | none =>
    have hne : ∀ u, u ≠ s.taskCount → (s.newTask none finishHook).tasks u = s.tasks u := fun u hu =>
      update_of_ne hu ..
    have hself : (s.newTask none finishHook).tasks s.taskCount =
        TaskSettle.newTask none finishHook false := update_self ..
    refine ⟨by rw [hself]; rfl, fun u hu => ?_, fun u hu => ?_, fun u c hc => ?_, rfl, rfl, rfl, rfl⟩
    · rw [hne u (Nat.ne_of_lt hu)]
      exact ⟨.refl _, rfl, rfl⟩
    · by_cases hun : u = s.taskCount
      · rw [hun, hself]
        rfl
      · rw [hne u hun]
        exact h.thread u hu
    · by_cases hun : u = s.taskCount
      · rw [hun, hself] at hc
        cases hc
      · rw [hne u hun] at hc
        exact .inr hc
  | some p =>
    have hp : p ≠ s.taskCount := Nat.ne_of_lt (hparent p rfl)
    have hself : (s.newTask (some p) finishHook).tasks s.taskCount =
        TaskSettle.newTask (some p) finishHook (s.tasks p).cancelled := update_self ..
    have hpself : (s.newTask (some p) finishHook).tasks p = if (s.tasks p).cancelled then s.tasks p
        else { s.tasks p with children := s.taskCount :: (s.tasks p).children } :=
      (update_of_ne hp ..).trans (update_self ..)
    have hne : ∀ u, u ≠ s.taskCount → u ≠ p →
        (s.newTask (some p) finishHook).tasks u = s.tasks u := fun u hu hup =>
      (update_of_ne hu ..).trans (update_of_ne hup ..)
    have hold : ∀ u, u ≠ s.taskCount →
        SameTask (s.tasks u) ((s.newTask (some p) finishHook).tasks u) ∧
        ((s.newTask (some p) finishHook).tasks u).thread = (s.tasks u).thread ∧
        ((s.newTask (some p) finishHook).tasks u).inside = (s.tasks u).inside ∧
        ∀ c ∈ ((s.newTask (some p) finishHook).tasks u).children,
          c = s.taskCount ∨ c ∈ (s.tasks u).children := by
      intro u hun
      by_cases hup : u = p
      · subst hup
        rw [hpself]
        split
        · exact ⟨.refl _, rfl, rfl, fun c hc => .inr hc⟩
        · exact ⟨⟨rfl, rfl, rfl, rfl, rfl, rfl, rfl⟩, rfl, rfl, fun c hc => List.mem_cons.mp hc⟩
      · rw [hne u hun hup]
        exact ⟨.refl _, rfl, rfl, fun c hc => .inr hc⟩
    refine ⟨by rw [hself]; rfl, fun u hu => ?_, fun u hu => ?_, fun u c hc => ?_, rfl, rfl, rfl, rfl⟩
    · obtain ⟨hsame, hthread, hinside, -⟩ := hold u (Nat.ne_of_lt hu)
      exact ⟨hsame, hthread, hinside⟩
    · by_cases hun : u = s.taskCount
      · rw [hun, hself]
        rfl
      · rw [(hold u hun).2.1]
        exact h.thread u hu
    · by_cases hun : u = s.taskCount
      · rw [hun, hself] at hc
        cases hc
      · exact (hold u hun).2.2.2 c hc

theorem Inv.createTaskThread (h : Inv s) (hi : s.place i = .unborn)
    (ht : (s.tasks t).thread = none) (hlt : t < s.taskCount) :
    Inv { s.setTask t { s.tasks t with thread := some i } with
      place := update s.place i (.starting t)
      home := update s.home i (some t) } := by
  have hnone := h.home_none hi
  have htasks := setTask_cases (s := s) (t := t) (x := { s.tasks t with thread := some i })
    (P := fun u y => SameTask (s.tasks u) y ∧ y.children = (s.tasks u).children ∧
      y.inside = (s.tasks u).inside ∧ (u ≠ t → y.thread = (s.tasks u).thread))
    ⟨⟨rfl, rfl, rfl, rfl, rfl, rfl, rfl⟩, rfl, rfl, fun hne => absurd rfl hne⟩
    fun u => ⟨.refl _, rfl, rfl, fun _ => rfl⟩
  have hplaces : ∀ P : ThreadId → Place V → Prop, P i (.starting t) →
      (∀ j, P j (s.place j)) → ∀ j, P j (update s.place i (.starting t) j) := by
    intro P hp hall j
    by_cases hji : j = i
    · subst hji
      rwa [update_self]
    · rw [update_of_ne hji]
      exact hall j
  refine ⟨?_, ?_, ?_, ?_, ?_, ?_, h.captured, ?_, ?_⟩
  · intro u k
    show ((s.setTask t _).tasks u).thread = some k ↔ update s.home i (some t) k = some u
    by_cases hut : u = t
    · subst hut
      rw [setTask_self]
      show some i = some k ↔ _
      by_cases hki : k = i
      · rw [hki, update_self]
        exact iff_of_true rfl rfl
      · rw [update_of_ne hki, ← h.home, ht]
        exact iff_of_false (fun heq => hki (Option.some.inj heq).symm) nofun
    · rw [(htasks u).2.2.2 hut]
      by_cases hki : k = i
      · rw [hki, update_self, h.home, hnone]
        exact iff_of_false nofun fun heq => hut (Option.some.inj heq).symm
      · rw [update_of_ne hki]
        exact h.home u k
  · intro u k hk
    show update s.place i (.starting t) k ≠ .unborn
    by_cases hki : k = i
    · rw [hki, update_self]
      exact nofun
    · rw [update_of_ne hki]
      exact h.born u k ((update_of_ne hki _ _).symm.trans hk)
  · intro u hu
    rw [(htasks u).2.2.2 (Nat.ne_of_gt (Nat.lt_of_lt_of_le hlt hu))]
    exact h.thread u hu
  · exact hplaces (fun _ q => q.Below s.taskCount) hlt h.below
  · intro k
    show (update s.place i (.starting t) k).NextOk (update s.home i (some t) k)
    by_cases hki : k = i
    · rw [hki, update_self, update_self]
      trivial
    · rw [update_of_ne hki, update_of_ne hki]
      exact h.next k
  · intro u
    rw [(htasks u).2.1]
    exact h.children u
  · intro u hu
    refine (h.phases u hu).move (htasks u).1 (fun p _ hp => (htasks p).2.1 ▸ hp) rfl ?_ nofun
    intro stage hstage
    rw [hi] at hstage
    cases hstage
  · intro u hu k hk hrunning
    change update s.home i (some t) k = some u at hk
    show update s.place i (.starting t) k = _ ∨ (∃ j, (update s.place i _ j).aborts u = true) ∨
      (_ ∧ update s.place i _ k ≠ _)
    rw [(htasks u).1.state] at hrunning
    rw [(htasks u).2.2.1]
    by_cases hki : k = i
    · subst hki
      rw [update_self] at hk
      rw [update_self, Option.some.inj hk]
      exact .inl rfl
    · rw [update_of_ne hki] at hk ⊢
      refine (h.live u hu k hk hrunning).imp_right (Or.imp_left ?_)
      rintro ⟨j, hj⟩
      have hji : j ≠ i := by
        rintro rfl
        rw [hi] at hj
        cases hj
      exact ⟨j, by rwa [update_of_ne hji]⟩

end MitScheme.Runtime.TaskSettle
