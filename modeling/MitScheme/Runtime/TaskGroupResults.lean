import Mathlib.Data.List.Perm.Lattice
import MitScheme.Lib.Machine
import MitScheme.Runtime.SimpleQueue

/-! # The results of a task group

`task-group->list` and `task-group-for-each` on a group with a single consumer that is not
cancelled and children that complete with arbitrary values. What runs with the mutex of the group
locked is one step. -/

namespace MitScheme.Runtime.TaskGroupResults
open Lib.Machine SimpleQueue Function

variable {α : Type}

abbrev TaskId := Nat

/-! ## Data -/

inductive Stage (α : Type)
  | running
  /-- `%finish-task!` has set the state and the result. -/
  | completed (value : α)
  /-- The finish hook has put it on the queue and taken the waiters: the consumer or nobody. -/
  | waking (value : α) (consumer : Bool)
  /-- `%wake-threads!` has returned. -/
  | ended (value : α)

def Stage.value : Stage α → Option α
  | .running => none
  | .completed value | .waking value _ | .ended value => some value

def Stage.hooked : Stage α → Bool
  | .running | .completed _ => false
  | .waking _ _ | .ended _ => true

/-- Where the consumer is in `task-group-next`. -/
inductive Consumer
  /-- Before `%wait` locks the mutex. -/
  | looking
  /-- It has found nothing and is a waiter. -/
  | registered
  | suspended
  /-- Before it takes itself off the waiters. -/
  | woken
  /-- Before `%task-value` of a child. -/
  | got (child : TaskId)
  /-- The procedure has returned. -/
  | returned

/-- `task-group->list` or `task-group-for-each`. -/
inductive Loop
  | toList
  | forEach

/-- A group with its children and its consumer. The list of waiters is the consumer or empty.
`results` is the accumulator of `task-group->list` and `calls` are the arguments of the procedure of
`task-group-for-each`; `order` is a history, the children by their finish hooks. -/
structure Group (α : Type) where
  stages : TaskId → Stage α
  count : Nat
  pending : List TaskId
  finished : Queue TaskId
  waiting : Bool
  event : Bool
  consumer : Consumer
  results : List α
  calls : List α
  order : List TaskId

namespace Group

def start : Group α :=
  ⟨fun _ => .running, 0, [], make, false, false, .looking, [], [], []⟩

def value (s : Group α) (t : TaskId) : Option α := (s.stages t).value

/-- What the procedure has got so far, in the order in which it got it. -/
def visited (s : Group α) : Loop → List α
  | .toList => s.results.reverse
  | .forEach => s.calls

def setStage (s : Group α) (t : TaskId) (stage : Stage α) : Group α :=
  { s with stages := update s.stages t stage }

@[simp] theorem setStage_same (s : Group α) (t : TaskId) (stage : Stage α) :
    (s.setStage t stage).stages t = stage := update_self ..

theorem setStage_of_ne (s : Group α) {t x} (h : x ≠ t) (stage : Stage α) :
    (s.setStage t stage).stages x = s.stages x := update_of_ne h ..

/-- An event of the thread of the consumer, which stays pending unless the thread is suspended. -/
def signal (s : Group α) : Group α :=
  match s.consumer with
  | .suspended => { s with consumer := .woken }
  | _ => { s with event := true }

/-- `%task-group-add`. -/
def add (s : Group α) : Group α :=
  { s with
    stages := update s.stages s.count .running
    count := s.count + 1
    pending := s.count :: s.pending }

/-- `%task-group-finish-hook`, up to the wake-ups. -/
def finishHook (s : Group α) (t : TaskId) (value : α) : Group α :=
  { s with
    stages := update s.stages t (.waking value s.waiting)
    pending := s.pending.filter (· ≠ t)
    finished := s.finished.enqueue t
    waiting := false
    order := s.order ++ [t] }

/-- A look of `%task-group-next-finished`. -/
def look (s : Group α) : Option (Group α) :=
  if !s.finished.isEmpty then
    s.finished.dequeue.map fun (t, finished) => { s with finished, consumer := .got t }
  else if s.pending = [] then some { s with consumer := .returned }
  else some { s with waiting := true, consumer := .registered }

/-- The turn of the loop for a value of `task-group-next`. -/
def visit [DecidableEq α] (eof : α) (loop : Loop) (s : Group α) (value : α) : Group α :=
  if value = eof then { s with consumer := .returned }
  else
    match loop with
    | .toList => { s with results := value :: s.results, consumer := .looking }
    | .forEach => { s with calls := s.calls ++ [value], consumer := .looking }

end Group

/-! ## Steps -/

inductive Action (α : Type)
  | add
  | complete (t : TaskId) (value : α)
  | hook (t : TaskId)
  | wake (t : TaskId)
  /-- Another event of the thread of the consumer. -/
  | signal
  /-- The events that are pending are delivered when they are not blocked. -/
  | deliver
  | look
  | suspend
  | remove
  | value

def Action.ofConsumer : Action α → Bool
  | .look | .suspend | .remove | .value => true
  | _ => false

def step [DecidableEq α] (eof : α) (loop : Loop) (s : Group α) (action : Action α) :
    Option (Group α) :=
  match action, s.consumer with
  | _, .returned => none
  | .add, _ => some s.add
  | .complete t value, _ =>
    match s.stages t with
    | .running => if t < s.count then some (s.setStage t (.completed value)) else none
    | _ => none
  | .hook t, _ =>
    match s.stages t with
    | .completed value => if t < s.count then some (s.finishHook t value) else none
    | _ => none
  | .wake t, _ =>
    match s.stages t with
    | .waking value true => some (s.signal.setStage t (.ended value))
    | .waking value false => some (s.setStage t (.ended value))
    | _ => none
  | .signal, _ => some s.signal
  | .deliver, .looking | .deliver, .got _ => some { s with event := false }
  | .look, .looking => s.look
  | .suspend, .registered =>
    some (if s.event then { s with event := false, consumer := .woken }
      else { s with consumer := .suspended })
  | .remove, .woken => some { s with waiting := false, consumer := .looking }
  | .value, .got t =>
    match s.stages t with
    | .completed value | .waking value _ | .ended value => some (s.visit eof loop value)
    | .running => none
  | _, _ => none

/-! ## The invariant -/

def Visited (eof : α) (s : Group α) (visited : List α) (collected queue : List TaskId) : Prop :=
  match s.consumer with
  | .got t => ∃ before, collected = before ++ [t] ∧ visited.map some = before.map s.value
  | .returned =>
    (visited.map some = collected.map s.value ∧ queue = [] ∧ s.pending = []) ∨
      ∃ before t, collected = before ++ [t] ∧ visited.map some = before.map s.value ∧
        s.value t = some eof
  | _ => visited.map some = collected.map s.value

def WakeComing (s : Group α) : Prop :=
  (s.waiting = true ∧ s.pending ≠ []) ∨
    ∃ t < s.count, ∃ value, s.stages t = .waking value true

def Awake (s : Group α) : Prop :=
  match s.consumer with
  | .registered => WakeComing s ∨ s.event = true
  | .suspended => WakeComing s
  | _ => True

/-- The children that the consumer has taken from the queue, and those that are on it. -/
structure Inv (eof : α) (loop : Loop) (s : Group α) (collected queue : List TaskId) : Prop where
  holds : Holds s.finished queue
  order : s.order = collected ++ queue
  nodup : s.order.Nodup
  mem_order : ∀ t, t ∈ s.order ↔ t < s.count ∧ (s.stages t).hooked = true
  mem_pending : ∀ t, t ∈ s.pending ↔ t < s.count ∧ (s.stages t).hooked = false
  no_eof : eof ∉ s.visited loop
  visited : Visited eof s (s.visited loop) collected queue
  awake : Awake s

section
variable {eof : α} {loop : Loop} {s s' : Group α} {collected queue : List TaskId} {t : TaskId}

theorem inv_start : Inv eof loop (Group.start : Group α) [] [] where
  holds := holds_make
  order := rfl
  nodup := .nil
  mem_order t := by simp [Group.start]
  mem_pending t := by simp [Group.start]
  no_eof := by cases loop <;> simp [Group.start, Group.visited]
  visited := by cases loop <;> rfl
  awake := trivial

theorem Inv.mem_collected (h : Inv eof loop s collected queue) (ht : t ∈ collected) :
    t < s.count ∧ (s.stages t).hooked = true :=
  (h.mem_order t).mp (h.order ▸ List.mem_append_left queue ht)

theorem Visited.congr {visited} (h : Visited eof s visited collected queue)
    (hconsumer : s'.consumer = s.consumer) (hreturned : s.consumer ≠ .returned)
    (hvalue : ∀ t ∈ collected, s'.value t = s.value t) :
    Visited eof s' visited collected queue := by
  unfold Visited at h ⊢
  rw [hconsumer]
  cases hc : s.consumer with
  | got t =>
    rw [hc] at h
    obtain ⟨before, rfl, hmap⟩ := h
    refine ⟨before, rfl, hmap.trans (List.map_congr_left fun t ht => ?_)⟩
    exact (hvalue t (List.mem_append_left _ ht)).symm
  | returned => exact absurd hc hreturned
  | looking | registered | suspended | woken =>
    rw [hc] at h
    exact h.trans (List.map_congr_left fun t ht => (hvalue t ht).symm)

theorem Inv.setStage (h : Inv eof loop s collected queue) {stage}
    (hreturned : s.consumer ≠ .returned) (hhooked : stage.hooked = (s.stages t).hooked)
    (hvalue : stage.hooked = true → stage.value = (s.stages t).value)
    (hawake : Awake (s.setStage t stage)) : Inv eof loop (s.setStage t stage) collected queue := by
  have hsame (x : TaskId) : ((s.setStage t stage).stages x).hooked = (s.stages x).hooked := by
    by_cases hx : x = t
    · subst hx
      rw [Group.setStage_same, hhooked]
    · rw [Group.setStage_of_ne s hx]
  refine { h with
    mem_order := fun x => by rw [hsame]; exact h.mem_order x
    mem_pending := fun x => by rw [hsame]; exact h.mem_pending x
    visited := h.visited.congr rfl hreturned fun x hx => ?_
    awake := hawake }
  by_cases hxt : x = t
  · subst hxt
    have hx := (h.mem_collected hx).2
    rw [Group.value, Group.setStage_same, hvalue (hhooked.trans hx)]
    rfl
  · rw [Group.value, Group.setStage_of_ne s hxt]
    rfl

theorem WakeComing.setStage (h : WakeComing s) {stage}
    (hstage : ∀ value, s.stages t ≠ .waking value true) : WakeComing (s.setStage t stage) := by
  refine h.imp id fun ⟨x, hx, value, hvalue⟩ => ⟨x, hx, value, ?_⟩
  have hne : x ≠ t := fun heq => hstage value (heq ▸ hvalue)
  rw [Group.setStage_of_ne s hne, hvalue]

theorem Awake.mono (h : Awake s) (hconsumer : s'.consumer = s.consumer) (hevent : s'.event = s.event)
    (hcoming : WakeComing s → WakeComing s') : Awake s' := by
  unfold Awake at h ⊢
  rw [hconsumer, hevent]
  cases hc : s.consumer with
  | registered =>
    rw [hc] at h
    exact h.imp_left hcoming
  | suspended =>
    rw [hc] at h
    exact hcoming h
  | _ => trivial

theorem Awake.setStage (h : Awake s) {stage} (hstage : ∀ value, s.stages t ≠ .waking value true) :
    Awake (s.setStage t stage) :=
  h.mono rfl rfl (·.setStage hstage)

/-- The consumer is not between a child and its value, and has not returned. -/
def Consumer.Plain : Consumer → Prop
  | .got _ | .returned => False
  | _ => True

theorem Visited.of_plain {visited} (hplain : s.consumer.Plain) :
    Visited eof s visited collected queue ↔ visited.map some = collected.map s.value := by
  unfold Visited
  cases hc : s.consumer with
  | got t => rw [hc] at hplain; exact hplain.elim
  | returned => rw [hc] at hplain; exact hplain.elim
  | _ => rfl

theorem Inv.setConsumer (h : Inv eof loop s collected queue) (hplain : s.consumer.Plain)
    {consumer} (hplain' : consumer.Plain) {waiting event}
    (hawake : Awake { s with waiting, event, consumer }) :
    Inv eof loop { s with waiting, event, consumer } collected queue :=
  { h with
    no_eof := by cases loop <;> exact h.no_eof
    visited := by
      have hvisited := (Visited.of_plain hplain).mp h.visited
      refine (Visited.of_plain (s := { s with waiting, event, consumer }) hplain').mpr ?_
      cases loop <;> exact hvisited
    awake := hawake }

theorem Inv.setEvent (h : Inv eof loop s collected queue) {event}
    (hawake : Awake { s with event }) : Inv eof loop { s with event } collected queue :=
  { h with
    no_eof := by cases loop <;> exact h.no_eof
    visited := by cases loop <;> exact h.visited
    awake := hawake }

theorem Inv.signal (h : Inv eof loop s collected queue) :
    Inv eof loop s.signal collected queue := by
  unfold Group.signal
  split
  · next hc => exact h.setConsumer (hc ▸ trivial) (show Consumer.woken.Plain from trivial) trivial
  · next hc =>
    refine h.setEvent ?_
    unfold Awake
    dsimp only
    cases hconsumer : s.consumer with
    | suspended => exact absurd hconsumer hc
    | registered => exact .inr rfl
    | _ => trivial

theorem awake_signal (s : Group α) (t : TaskId) (stage : Stage α) :
    Awake (s.signal.setStage t stage) := by
  unfold Group.signal
  split
  · trivial
  · next hc =>
    unfold Awake
    change match s.consumer with
      | .registered => _ ∨ true = true
      | .suspended => _
      | _ => True
    cases hconsumer : s.consumer with
    | suspended => exact absurd hconsumer hc
    | registered => exact .inr rfl
    | _ => trivial

theorem signal_stages (s : Group α) : s.signal.stages = s.stages := by
  unfold Group.signal
  split <;> rfl

theorem signal_returned (h : s.consumer ≠ .returned) : s.signal.consumer ≠ .returned := by
  unfold Group.signal
  split
  · exact nofun
  · exact h

theorem Inv.add (h : Inv eof loop s collected queue) (hreturned : s.consumer ≠ .returned) :
    Inv eof loop s.add collected queue := by
  have hold {t : TaskId} (ht : t < s.count) : s.add.stages t = s.stages t :=
    update_of_ne (Nat.ne_of_lt ht) ..
  have hnew : s.add.stages s.count = .running := update_self ..
  have hcount : s.add.count = s.count + 1 := rfl
  have hwake (hw : WakeComing s) : WakeComing s.add := by
    rcases hw with ⟨hwaiting, -⟩ | ⟨t, ht, value, hvalue⟩
    · exact .inl ⟨hwaiting, List.cons_ne_nil _ _⟩
    · exact .inr ⟨t, Nat.lt_succ_of_lt ht, value, (hold ht).trans hvalue⟩
  refine { h with
    mem_order := fun t => ?_
    mem_pending := fun t => ?_
    no_eof := by cases loop <;> exact h.no_eof
    visited := h.visited.congr rfl hreturned fun t ht => ?_
    awake := ?_ }
  · change t ∈ s.order ↔ _
    rw [h.mem_order, hcount]
    rcases Nat.lt_trichotomy t s.count with hlt | rfl | hgt
    · rw [hold hlt]
      exact and_congr_left fun _ => iff_of_true hlt (Nat.lt_succ_of_lt hlt)
    · rw [hnew]
      simp [Stage.hooked]
    · exact iff_of_false (fun hn => Nat.lt_asymm hgt hn.1) fun hn =>
        Nat.lt_irrefl _ (Nat.lt_of_lt_of_le hgt (Nat.le_of_lt_succ hn.1))
  · change t ∈ s.count :: s.pending ↔ _
    rw [List.mem_cons, h.mem_pending, hcount]
    rcases Nat.lt_trichotomy t s.count with hlt | rfl | hgt
    · rw [hold hlt]
      constructor
      · rintro (rfl | hp)
        · exact absurd hlt (Nat.lt_irrefl _)
        · exact ⟨Nat.lt_succ_of_lt hlt, hp.2⟩
      · exact fun hp => .inr ⟨hlt, hp.2⟩
    · exact iff_of_true (.inl rfl) ⟨Nat.lt_succ_self _, by rw [hnew]; rfl⟩
    · refine iff_of_false ?_ fun hn =>
        Nat.lt_irrefl _ (Nat.lt_of_lt_of_le hgt (Nat.le_of_lt_succ hn.1))
      rintro (rfl | hn)
      · exact Nat.lt_irrefl _ hgt
      · exact Nat.lt_asymm hgt hn.1
  · rw [Group.value, hold (h.mem_collected ht).1]
    rfl
  · exact h.awake.mono rfl rfl hwake

theorem Inv.finishHook (h : Inv eof loop s collected queue) (hreturned : s.consumer ≠ .returned)
    {value} (ht : t < s.count) (hstage : s.stages t = .completed value) :
    Inv eof loop (s.finishHook t value) collected (queue ++ [t]) := by
  have hsame : (s.finishHook t value).stages t = .waking value s.waiting := update_self ..
  have hold {x : TaskId} (hx : x ≠ t) : (s.finishHook t value).stages x = s.stages x :=
    update_of_ne hx ..
  have hnot : t ∉ s.order := fun hmem => by
    have hhooked := ((h.mem_order t).mp hmem).2
    rw [hstage] at hhooked
    cases hhooked
  have hwake (hw : WakeComing s) : WakeComing (s.finishHook t value) := by
    rcases hw with ⟨hwaiting, -⟩ | ⟨x, hx, v, hv⟩
    · exact .inr ⟨t, ht, value, hsame.trans (by rw [hwaiting])⟩
    · have hne : x ≠ t := fun heq => by rw [heq, hstage] at hv; cases hv
      exact .inr ⟨x, hx, v, (hold hne).trans hv⟩
  refine {
    holds := h.holds.enqueue t
    order := by rw [← List.append_assoc, ← h.order]; rfl
    nodup := ?_
    mem_order := fun x => ?_
    mem_pending := fun x => ?_
    no_eof := by cases loop <;> exact h.no_eof
    visited := ?_
    awake := ?_ }
  · exact List.nodup_append.mpr ⟨h.nodup, List.pairwise_singleton _ _, by
      intro x hx y hy heq
      rw [List.mem_singleton] at hy
      exact hnot (hy ▸ heq ▸ hx)⟩
  · change x ∈ s.order ++ [t] ↔ x < s.count ∧ _
    rw [List.mem_append, List.mem_singleton, h.mem_order]
    by_cases hx : x = t
    · subst hx
      exact iff_of_true (.inr rfl) ⟨ht, by rw [hsame]; rfl⟩
    · rw [hold hx, or_iff_left hx]
  · change x ∈ s.pending.filter (· ≠ t) ↔ x < s.count ∧ _
    rw [List.mem_filter, h.mem_pending]
    by_cases hx : x = t
    · subst hx
      refine iff_of_false (by simp) fun hn => ?_
      rw [hsame] at hn
      cases hn.2
    · rw [hold hx]
      simp [hx]
  · have hvisited : Visited eof s (s.visited loop) collected (queue ++ [t]) := by
      have hv := h.visited
      unfold Visited at hv ⊢
      cases hc : s.consumer with
      | returned => exact absurd hc hreturned
      | _ => rw [hc] at hv; exact hv
    have hcongr : Visited eof (s.finishHook t value) (s.visited loop) collected (queue ++ [t]) := by
      refine hvisited.congr rfl hreturned fun x hx => ?_
      have hne : x ≠ t := fun heq =>
        hnot (h.order ▸ List.mem_append_left queue (heq ▸ hx))
      rw [Group.value, hold hne]
      rfl
    cases loop <;> exact hcongr
  · exact h.awake.mono rfl rfl hwake

theorem Inv.look_cons (h : Inv eof loop s collected (t :: queue)) (hc : s.consumer = .looking) :
    ∃ finished, s.look = some { s with finished, consumer := .got t } ∧
      Inv eof loop { s with finished, consumer := .got t } (collected ++ [t]) queue := by
  have hvisited := (Visited.of_plain (hc ▸ trivial)).mp h.visited
  obtain ⟨finished, hdequeue, hholds⟩ := h.holds.dequeue
  refine ⟨finished, ?_, { h with
    holds := hholds
    order := by rw [List.append_assoc]; exact h.order
    no_eof := by cases loop <;> exact h.no_eof
    visited := ⟨collected, rfl, by cases loop <;> exact hvisited⟩
    awake := trivial }⟩
  rw [Group.look, h.holds.isEmpty, hdequeue]
  rfl

theorem Inv.look_nil (h : Inv eof loop s collected []) (hc : s.consumer = .looking) :
    (s.pending = [] ∧ s.look = some { s with consumer := .returned } ∧
        Inv eof loop { s with consumer := .returned } collected []) ∨
      (s.pending ≠ [] ∧ s.look = some { s with waiting := true, consumer := .registered } ∧
        Inv eof loop { s with waiting := true, consumer := .registered } collected []) := by
  have hvisited := (Visited.of_plain (hc ▸ trivial)).mp h.visited
  by_cases hpending : s.pending = []
  · refine .inl ⟨hpending, ?_, { h with
      no_eof := by cases loop <;> exact h.no_eof
      visited := .inl ⟨by cases loop <;> exact hvisited, rfl, hpending⟩
      awake := trivial }⟩
    rw [Group.look, h.holds.isEmpty]
    simp [hpending]
  · refine .inr ⟨hpending, ?_, h.setConsumer (hc ▸ trivial)
      (show Consumer.registered.Plain from trivial) (.inl (.inl ⟨rfl, hpending⟩))⟩
    rw [Group.look, h.holds.isEmpty]
    simp [hpending]

theorem Inv.look (h : Inv eof loop s collected queue) (hc : s.consumer = .looking)
    (hlook : s.look = some s') : ∃ collected' queue', Inv eof loop s' collected' queue' := by
  match queue with
  | t :: queue =>
    obtain ⟨finished, heq, hinv⟩ := h.look_cons hc
    exact ⟨_, _, Option.some.inj (heq.symm.trans hlook) ▸ hinv⟩
  | [] =>
    rcases h.look_nil hc with ⟨-, heq, hinv⟩ | ⟨-, heq, hinv⟩
    · exact ⟨_, _, Option.some.inj (heq.symm.trans hlook) ▸ hinv⟩
    · exact ⟨_, _, Option.some.inj (heq.symm.trans hlook) ▸ hinv⟩

theorem Inv.visit [DecidableEq α] (h : Inv eof loop s collected queue) (hc : s.consumer = .got t)
    {value} (hvalue : s.value t = some value) :
    Inv eof loop (s.visit eof loop value) collected queue := by
  obtain ⟨before, rfl, hmap⟩ : ∃ before, collected = before ++ [t] ∧
      (s.visited loop).map some = before.map s.value := by
    have hv := h.visited
    unfold Visited at hv
    rw [hc] at hv
    exact hv
  unfold Group.visit
  split_ifs with heof
  · exact { h with
      no_eof := by cases loop <;> exact h.no_eof
      visited := .inr ⟨before, t, rfl, by cases loop <;> exact hmap, heof ▸ hvalue⟩
      awake := trivial }
  · have hmap' : (s.visited loop ++ [value]).map some = (before ++ [t]).map s.value := by
      rw [List.map_append, List.map_append, hmap, List.map_singleton, List.map_singleton, hvalue]
    have hno : eof ∉ s.visited loop ++ [value] := by
      rw [List.mem_append, List.mem_singleton]
      exact not_or.mpr ⟨h.no_eof, Ne.symm heof⟩
    cases loop with
    | toList =>
      have hreverse : (value :: s.results).reverse = s.visited .toList ++ [value] :=
        List.reverse_cons
      exact { h with
        no_eof := by change eof ∉ (value :: s.results).reverse; rwa [hreverse]
        visited := by
          refine (Visited.of_plain (by trivial)).mpr ?_
          change (value :: s.results).reverse.map some = _
          rwa [hreverse]
        awake := trivial }
    | forEach =>
      exact { h with
        no_eof := hno
        visited := (Visited.of_plain (by trivial)).mpr hmap'
        awake := trivial }

theorem Inv.preserved [DecidableEq α] (h : Inv eof loop s collected queue) {action}
    (hstep : step eof loop s action = some s') :
    ∃ collected' queue', Inv eof loop s' collected' queue' := by
  by_cases hreturned : s.consumer = .returned
  · simp [TaskGroupResults.step, hreturned] at hstep
  unfold TaskGroupResults.step at hstep
  split at hstep
  · cases hstep
  · cases hstep
    exact ⟨_, _, h.add hreturned⟩
  · next t value _ =>
    split at hstep
    · next hstage =>
      split_ifs at hstep with ht
      cases hstep
      exact ⟨_, _, h.setStage hreturned (by rw [hstage]; rfl) (fun hn => by cases hn)
        (h.awake.setStage fun v hv => by rw [hstage] at hv; cases hv)⟩
    · cases hstep
  · next t _ =>
    split at hstep
    · next value hstage =>
      split_ifs at hstep with ht
      cases hstep
      exact ⟨_, _, h.finishHook hreturned ht hstage⟩
    · cases hstep
  · next t _ =>
    split at hstep
    · next value hstage =>
      cases hstep
      have hsignal : s.signal.stages t = .waking value true := by rw [signal_stages, hstage]
      exact ⟨_, _, h.signal.setStage (signal_returned hreturned) (by rw [hsignal]; rfl)
        (fun _ => by rw [hsignal]; rfl) (awake_signal s t _)⟩
    · next value hstage =>
      cases hstep
      exact ⟨_, _, h.setStage hreturned (by rw [hstage]; rfl) (fun _ => by rw [hstage]; rfl)
        (h.awake.setStage fun v hv => by rw [hstage] at hv; cases hv)⟩
    · cases hstep
  · cases hstep
    exact ⟨_, _, h.signal⟩
  · next hc =>
    cases hstep
    exact ⟨_, _, h.setEvent (by unfold Awake; dsimp only; rw [hc]; trivial)⟩
  · next hc =>
    cases hstep
    exact ⟨_, _, h.setEvent (by unfold Awake; dsimp only; rw [hc]; trivial)⟩
  · next hc => exact h.look hc hstep
  · next hc =>
    have hplain : s.consumer.Plain := hc ▸ trivial
    cases hstep
    split_ifs with hevent
    · exact ⟨_, _, h.setConsumer hplain (show Consumer.woken.Plain from trivial) trivial⟩
    · have hawake := h.awake
      unfold Awake at hawake
      rw [hc] at hawake
      exact ⟨_, _, h.setConsumer hplain (show Consumer.suspended.Plain from trivial)
        (hawake.resolve_right hevent)⟩
  · next hc =>
    cases hstep
    exact ⟨_, _, h.setConsumer (hc ▸ trivial) (show Consumer.looking.Plain from trivial) trivial⟩
  · next t hc =>
    have hvalue : s.value t = (s.stages t).value := rfl
    split at hstep
    · next value hstage => cases hstep; exact ⟨_, _, h.visit hc (by rw [hvalue, hstage]; rfl)⟩
    · next value _ hstage => cases hstep; exact ⟨_, _, h.visit hc (by rw [hvalue, hstage]; rfl)⟩
    · next value hstage => cases hstep; exact ⟨_, _, h.visit hc (by rw [hvalue, hstage]; rfl)⟩
    · cases hstep
  · cases hstep

theorem run_inv [DecidableEq α] {actions} (hrun : run (step eof loop) .start actions = some s) :
    ∃ collected queue, Inv eof loop s collected queue :=
  run_invariant' (I := fun s => ∃ collected queue, Inv eof loop s collected queue)
    (fun ⟨_, _, h⟩ hs => h.preserved hs) ⟨[], [], inv_start⟩ hrun

end

/-! ## What the procedures return -/

section
variable {eof : α} {loop : Loop} {s : Group α} {collected queue : List TaskId}

/-- One value for every child, in the order of the finish hooks. -/
structure Exact (loop : Loop) (s : Group α) : Prop where
  values : (s.visited loop).map some = s.order.map s.value
  children : s.order.Perm (List.range s.count)

def AllEnded (s : Group α) : Prop := ∀ t < s.count, ∃ value, s.stages t = .ended value

theorem Inv.exact_iff (h : Inv eof loop s collected queue) (hreturned : s.consumer = .returned) :
    Exact loop s ↔ ∀ t < s.count, s.value t ≠ some eof := by
  have hvisited := h.visited
  unfold Visited at hvisited
  rw [hreturned] at hvisited
  constructor
  · rintro ⟨hvalues, hchildren⟩ t ht heof
    have hmem : t ∈ s.order := hchildren.mem_iff.mpr (List.mem_range.mpr ht)
    have hsome : some eof ∈ (s.visited loop).map some := by
      rw [hvalues, ← heof]
      exact List.mem_map_of_mem hmem
    obtain ⟨value, hvalue, heq⟩ := List.mem_map.mp hsome
    exact h.no_eof (Option.some.inj heq ▸ hvalue)
  · intro hno
    rcases hvisited with ⟨hmap, rfl, hpending⟩ | ⟨before, t, rfl, -, heof⟩
    · have horder := h.order
      rw [List.append_nil] at horder
      refine ⟨by rw [horder]; exact hmap, (List.perm_ext_iff_of_nodup h.nodup List.nodup_range).mpr
        fun t => ?_⟩
      rw [h.mem_order, List.mem_range]
      refine and_iff_left_of_imp fun ht => ?_
      by_contra hnot
      have hmem := (h.mem_pending t).mpr ⟨ht, Bool.not_eq_true _ ▸ hnot⟩
      rw [hpending] at hmem
      cases hmem
    · exact absurd heof (hno t (h.mem_collected (List.mem_append_right before (by simp))).1)

theorem Inv.pending_nil (h : Inv eof loop s collected queue) (hended : AllEnded s) :
    s.pending = [] := by
  refine List.eq_nil_iff_forall_not_mem.mpr fun t ht => ?_
  obtain ⟨hcount, hhooked⟩ := (h.mem_pending t).mp ht
  obtain ⟨value, hstage⟩ := hended t hcount
  rw [hstage] at hhooked
  cases hhooked

variable [DecidableEq α]

def Returns (eof : α) (loop : Loop) (s : Group α) : Prop :=
  ∃ more s', run (step eof loop) s more = some s' ∧
    (∀ action ∈ more, action.ofConsumer = true) ∧ s'.consumer = .returned

theorem Returns.step {s' action} (h : Returns eof loop s')
    (hstep : TaskGroupResults.step eof loop s action = some s')
    (hconsumer : action.ofConsumer = true) : Returns eof loop s := by
  obtain ⟨more, s'', hrun, hmore, hreturned⟩ := h
  refine ⟨action :: more, s'', ?_, List.forall_mem_cons.mpr ⟨hconsumer, hmore⟩, hreturned⟩
  rw [run, hstep]
  exact hrun

theorem Inv.returns_got (h : Inv eof loop s collected queue) (hended : AllEnded s) {t}
    (hc : s.consumer = .got t)
    (hnext : ∀ s' : Group α, Inv eof loop s' collected queue → AllEnded s' →
      s'.consumer = .looking → Returns eof loop s') : Returns eof loop s := by
  obtain ⟨before, rfl, -⟩ : ∃ before, collected = before ++ [t] ∧
      (s.visited loop).map some = before.map s.value := by
    have hv := h.visited
    unfold Visited at hv
    rw [hc] at hv
    exact hv
  obtain ⟨value, hstage⟩ :=
    hended t (h.mem_collected (List.mem_append_right before (List.mem_singleton_self t))).1
  have hstep : step eof loop s .value = some (s.visit eof loop value) := by
    simp only [step, hc, hstage]
  have hinv := h.visit hc (by rw [Group.value, hstage]; rfl)
  refine Returns.step ?_ hstep rfl
  unfold Group.visit at hinv ⊢
  split_ifs at hinv ⊢ with heof
  · exact ⟨[], _, rfl, by simp, rfl⟩
  · cases loop with
    | toList => exact hnext _ hinv hended rfl
    | forEach => exact hnext _ hinv hended rfl

theorem Inv.returns_looking (h : Inv eof loop s collected queue) (hended : AllEnded s)
    (hc : s.consumer = .looking) : Returns eof loop s := by
  induction queue generalizing s collected with
  | nil =>
    rcases h.look_nil hc with ⟨-, hlook, -⟩ | ⟨hne, -⟩
    · have hstep : step eof loop s .look = some { s with consumer := .returned } := by
        simpa only [step, hc] using hlook
      exact Returns.step ⟨[], _, rfl, by simp, rfl⟩ hstep rfl
    · exact absurd (h.pending_nil hended) hne
  | cons t queue ih =>
    obtain ⟨finished, hlook, hinv⟩ := h.look_cons hc
    have hstep : step eof loop s .look = some { s with finished, consumer := .got t } := by
      simpa only [step, hc] using hlook
    exact Returns.step (hinv.returns_got hended rfl fun s' h' => ih h') hstep rfl

theorem Inv.returns (h : Inv eof loop s collected queue) (hended : AllEnded s) :
    Returns eof loop s := by
  have hno : ¬WakeComing s := by
    rintro (⟨-, hpending⟩ | ⟨t, ht, value, hstage⟩)
    · exact hpending (h.pending_nil hended)
    · obtain ⟨value', hstage'⟩ := hended t ht
      rw [hstage] at hstage'
      cases hstage'
  have hawake := h.awake
  unfold Awake at hawake
  have hwoken {s' : Group α} {collected' queue' : List TaskId}
      (h' : Inv eof loop s' collected' queue') (hended' : AllEnded s')
      (hc' : s'.consumer = .woken) : Returns eof loop s' := by
    have hstep : step eof loop s' .remove =
        some { s' with waiting := false, consumer := .looking } := by
      simp only [step, hc']
    exact Returns.step ((h'.setConsumer (hc' ▸ trivial)
      (show Consumer.looking.Plain from trivial) trivial).returns_looking hended' rfl) hstep rfl
  cases hc : s.consumer with
  | returned => exact ⟨[], s, rfl, by simp, hc⟩
  | looking => exact h.returns_looking hended hc
  | got t => exact h.returns_got hended hc fun s' h' he' hc' => h'.returns_looking he' hc'
  | woken => exact hwoken h hended hc
  | suspended =>
    rw [hc] at hawake
    exact absurd hawake hno
  | registered =>
    rw [hc] at hawake
    have hevent := hawake.resolve_left hno
    have hstep : step eof loop s .suspend = some { s with event := false, consumer := .woken } := by
      simp only [step, hc, hevent, if_true]
    exact Returns.step (hwoken (h.setConsumer (hc ▸ trivial)
      (show Consumer.woken.Plain from trivial) trivial) hended rfl) hstep rfl

/-- **The results of a task group.** When the procedure returns, it has got one value for every
child in the order in which they finished exactly if no child's value is the end-of-file object; and
it returns in every run, whatever the order of its steps and those of the children. -/
theorem results_iff (eof : α) (loop : Loop) (actions : List (Action α)) {s : Group α}
    (hrun : run (step eof loop) .start actions = some s) :
    (s.consumer = .returned → (Exact loop s ↔ ∀ t < s.count, s.value t ≠ some eof)) ∧
      (AllEnded s → Returns eof loop s) := by
  obtain ⟨collected, queue, h⟩ := run_inv hrun
  exact ⟨h.exact_iff, h.returns⟩

/-- Two children: the second finishes first, and the consumer waits for it. -/
def secondFirst : List (Action (Option Nat)) :=
  [.add, .add, .look, .suspend, .complete 1 (some 5), .hook 1, .complete 0 (some 7), .wake 1,
    .remove, .look, .value, .hook 0, .wake 0, .look, .value, .look]

theorem results_iff_two : ∃ s, run (step none .toList) .start secondFirst = some s ∧
    s.order = [1, 0] ∧ Exact .toList s := by
  have hrun : run (step none .toList) .start secondFirst = some _ := rfl
  refine ⟨_, hrun, rfl, ((results_iff none .toList secondFirst hrun).1 rfl).mpr fun t ht => ?_⟩
  have ht' : t < 2 := ht
  match t, ht' with
  | 0, _ => exact fun h => by cases h
  | 1, _ => exact fun h => by cases h

/-- A child with the end-of-file object for its value. -/
theorem results_eof : ∃ s, run (step (none : Option Nat) .toList) .start
      [.add, .add, .complete 0 none, .hook 0, .wake 0, .complete 1 (some 5), .hook 1, .wake 1,
        .look, .value] = some s ∧
    s.consumer = .returned ∧ s.order = [0, 1] ∧ s.visited .toList = [] :=
  ⟨_, rfl, rfl, rfl, rfl⟩

end

end MitScheme.Runtime.TaskGroupResults
