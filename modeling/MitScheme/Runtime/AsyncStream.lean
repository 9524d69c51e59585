import MitScheme.Lib.Machine

/-! # Async streams

One async stream with any number of producers and consumers. What runs with the
mutex of the stream locked is one step. The values are arbitrary objects, of
which `eof` are the EOF objects; a failure is any object but `#f`. -/

namespace MitScheme.Runtime.AsyncStream
open Lib.Machine

abbrev ThreadId := Nat

variable {α φ : Type}

/-! ## The stream -/

structure Stream (α φ : Type) where
  items : List α
  finished : Bool
  failure : Option φ
  waiters : List ThreadId

/-- What `async-stream-next` finds. -/
inductive Next (α φ : Type)
  | value (v : α)
  | failed (failure : φ)
  | done
  | unavailable

namespace Stream

/-- `make-async-stream` without a producer. -/
def make : Stream α φ := ⟨[], false, none, []⟩

/-- `%async-stream-update!`, with what it returns. The waiters are taken to be
woken. -/
def update (x : Stream α φ) (f : Stream α φ → Option (Stream α φ)) : Stream α φ × Bool :=
  match f x with
  | some y => ({ y with waiters := [] }, true)
  | none => (x, false)

/-- `async-stream-yield!`. -/
def yield (x : Stream α φ) (v : α) : Stream α φ × Bool :=
  x.update fun x => if x.finished then none else some { x with items := x.items ++ [v] }

/-- `async-stream-finish!`. -/
def finish (x : Stream α φ) (failure : Option φ) : Stream α φ × Bool :=
  x.update fun x => if x.finished then none else some { x with finished := true, failure }

/-- The test of `async-stream-next`. -/
def tryNext (x : Stream α φ) : Next α φ × Stream α φ :=
  match x.items with
  | v :: items => (.value v, { x with items })
  | [] =>
    if x.finished then
      match x.failure with
      | some f => (.failed f, { x with failure := none })
      | none => (.done, x)
    else (.unavailable, x)

/-- `async-stream-next` looks once; it waits when there is nothing. -/
def next (x : Stream α φ) (consumer : ThreadId) : Next α φ × Stream α φ :=
  match x.tryNext with
  | (.unavailable, y) => (.unavailable, { y with waiters := consumer :: y.waiters })
  | r => r

theorem next_cases (x : Stream α φ) (consumer) :
    (∃ v items, x.items = v :: items ∧ x.next consumer = (.value v, { x with items })) ∨
    (∃ f, x.items = [] ∧ x.finished = true ∧ x.failure = some f ∧
      x.next consumer = (.failed f, { x with failure := none })) ∨
    (x.items = [] ∧ x.finished = true ∧ x.failure = none ∧ x.next consumer = (.done, x)) ∨
    (x.items = [] ∧ x.finished = false ∧
      x.next consumer = (.unavailable, { x with waiters := consumer :: x.waiters })) := by
  cases hi : x.items with
  | cons v items => exact .inl ⟨v, items, rfl, by simp [next, tryNext, hi]⟩
  | nil =>
    cases hfin : x.finished with
    | false => exact .inr (.inr (.inr ⟨rfl, rfl, by simp [next, tryNext, hi, hfin]⟩))
    | true =>
      cases hfail : x.failure with
      | some f => exact .inr (.inl ⟨f, rfl, rfl, rfl, by simp [next, tryNext, hi, hfin, hfail]⟩)
      | none =>
        exact .inr (.inr (.inl ⟨rfl, rfl, rfl, by simp [next, tryNext, hi, hfin, hfail]⟩))

variable {x : Stream α φ}

theorem yield_of_finished (v) (h : x.finished = true) : x.yield v = (x, false) := by
  simp [yield, update, h]

theorem yield_of_open (v) (h : x.finished = false) :
    x.yield v = ({ x with items := x.items ++ [v], waiters := [] }, true) := by
  simp [yield, update, h]

theorem finish_of_finished (failure) (h : x.finished = true) : x.finish failure = (x, false) := by
  simp [finish, update, h]

theorem finish_of_open (failure) (h : x.finished = false) :
    x.finish failure = ({ x with finished := true, failure, waiters := [] }, true) := by
  simp [finish, update, h]

end Stream

/-! ## Producers and consumers -/

/-- A call of `async-stream->list`. -/
inductive ListCall (α φ : Type)
  /-- In its loop, with `results`. -/
  | loop (results : List α)
  | returned (list : List α)
  | raised (failure : φ)

/-- A stream and its history: the values accepted by `async-stream-yield!`, what
the calls of `async-stream-finish!` returned and the failure given to the one
that finished the stream, the values returned by `async-stream-next` and the
failures it signalled, latest last. `list` is a call of `async-stream->list`. -/
structure World (α φ : Type) where
  stream : Stream α φ
  accepted : List α
  finishes : List Bool
  finishedWith : Option φ
  delivered : List α
  failures : List φ
  list : ListCall α φ

inductive Action (α φ : Type)
  | yield (v : α)
  | finish (failure : Option φ)
  | next (consumer : ThreadId)
  /-- A cancelled consumer, or one that was woken, takes itself off the waiters. -/
  | removeWaiter (consumer : ThreadId)
  /-- `async-stream->list` calls `async-stream-next`. -/
  | listNext (consumer : ThreadId)

namespace World

def deliver (s : World α φ) : Next α φ × Stream α φ → World α φ
  | (.value v, x) => { s with stream := x, delivered := s.delivered ++ [v] }
  | (.failed f, x) => { s with stream := x, failures := s.failures ++ [f] }
  | (_, x) => { s with stream := x }

/-- The body of the loop of `async-stream->list`, given what
`async-stream-next` finds. -/
def listLoop (eof : α → Bool) (results : List α) : Next α φ → ListCall α φ
  | .value v => if eof v then .returned results.reverse else .loop (v :: results)
  | .failed f => .raised f
  | .done => .returned results.reverse
  | .unavailable => .loop results

def step (eof : α → Bool) (s : World α φ) : Action α φ → Option (World α φ)
  | .yield v =>
    let (x, accepted) := s.stream.yield v
    some { s with stream := x, accepted := if accepted then s.accepted ++ [v] else s.accepted }
  | .finish failure =>
    let (x, finished) := s.stream.finish failure
    some { s with
      stream := x
      finishes := s.finishes ++ [finished]
      finishedWith := if finished then failure else s.finishedWith }
  | .next consumer => some (s.deliver (s.stream.next consumer))
  | .removeWaiter consumer =>
    some { s with
      stream := { s.stream with waiters := s.stream.waiters.filter (· ≠ consumer) } }
  | .listNext consumer =>
    match s.list with
    | .loop results =>
      let r := s.stream.next consumer
      some { s.deliver r with list := listLoop eof results r.1 }
    | _ => none

def initial : World α φ := ⟨.make, [], [], none, [], [], .loop []⟩

/-! ## The invariant -/

structure Inv (s : World α φ) : Prop where
  /-- No value is lost, duplicated or moved. -/
  order : s.accepted = s.delivered ++ s.stream.items
  finishes : s.finishes.count true = if s.stream.finished then 1 else 0
  asked : s.finishes = [] ∨ s.stream.finished = true
  /-- The failure is kept until it has been signalled. -/
  failure : s.finishedWith.toList = s.failures ++ s.stream.failure.toList
  opened : s.stream.finished = false → s.finishedWith = none
  last : s.failures ≠ [] → s.stream.finished = true ∧ s.stream.items = []

variable {s s' : World α φ} {eof : α → Bool}

theorem Inv.deliver (h : Inv s) (consumer) : Inv (s.deliver (s.stream.next consumer)) := by
  obtain ⟨h1, h2, h3, h4, h5, h6⟩ := h
  obtain ⟨v, items, hi, hn⟩ | ⟨f, hi, hfin, hf, hn⟩ | ⟨hi, hfin, hf, hn⟩ | ⟨hi, hopen, hn⟩ :=
    s.stream.next_cases consumer <;> rw [hn]
  · refine ⟨?_, h2, h3, h4, h5, ?_⟩
    · rw [hi] at h1
      exact h1.trans (List.append_cons s.delivered v items)
    · intro hne
      have hnil := (h6 hne).2
      rw [hi] at hnil
      cases hnil
  · refine ⟨h1, h2, h3, ?_, h5, fun _ => ⟨hfin, hi⟩⟩
    rw [hf] at h4
    exact h4.trans (List.append_nil _).symm
  · exact ⟨h1, h2, h3, h4, h5, h6⟩
  · exact ⟨h1, h2, h3, h4, h5, h6⟩

theorem step_inv {a} (h : Inv s) (hs : s.step eof a = some s') : Inv s' := by
  cases a with
  | yield v =>
    obtain ⟨h1, h2, h3, h4, h5, h6⟩ := h
    cases hfin : s.stream.finished with
    | true =>
      simp only [step, Stream.yield_of_finished v hfin] at hs
      cases hs
      exact ⟨h1, h2, h3, h4, h5, h6⟩
    | false =>
      simp only [step, Stream.yield_of_open v hfin, if_true] at hs
      cases hs
      refine ⟨?_, h2, h3, h4, h5, ?_⟩
      · rw [h1]
        exact List.append_assoc _ _ _
      · intro hne
        have hdone := (h6 hne).1
        rw [hfin] at hdone
        cases hdone
  | finish failure =>
    obtain ⟨h1, h2, h3, h4, h5, h6⟩ := h
    cases hfin : s.stream.finished with
    | true =>
      simp only [step, Stream.finish_of_finished failure hfin] at hs
      cases hs
      refine ⟨h1, ?_, .inr hfin, h4, h5, h6⟩
      rw [List.count_append, h2]
      simp
    | false =>
      simp only [step, Stream.finish_of_open failure hfin, if_true] at hs
      cases hs
      have hno : s.failures = [] := by
        cases hf : s.failures with
        | nil => rfl
        | cons f fs =>
          have hdone := (h6 (by rw [hf]; nofun)).1
          rw [hfin] at hdone
          cases hdone
      refine ⟨h1, ?_, .inr rfl, ?_, nofun, ?_⟩
      · rw [hfin] at h2
        rw [List.count_append, h2]
        simp
      · rw [hno]
        rfl
      · rw [hno]
        exact fun hne => absurd rfl hne
  | next consumer =>
    cases hs
    exact h.deliver consumer
  | removeWaiter consumer =>
    cases hs
    obtain ⟨h1, h2, h3, h4, h5, h6⟩ := h
    exact ⟨h1, h2, h3, h4, h5, h6⟩
  | listNext consumer =>
    simp only [step] at hs
    split at hs
    · cases hs
      obtain ⟨h1, h2, h3, h4, h5, h6⟩ := h.deliver consumer
      exact ⟨h1, h2, h3, h4, h5, h6⟩
    · cases hs

theorem initial_inv : Inv (initial : World α φ) := by
  refine ⟨rfl, rfl, .inl rfl, rfl, fun _ => rfl, fun hne => absurd rfl hne⟩

/-! ## One list consumer -/

/-- The only consumer is `async-stream->list`. -/
def SingleConsumer (_ : World α φ) : Action α φ → Prop
  | .next _ => False
  | _ => True

instance (s : World α φ) (a : Action α φ) : Decidable (s.SingleConsumer a) := by
  cases a <;> unfold SingleConsumer <;> infer_instance

/-- What `async-stream->list` has, when no value delivered to it was an EOF
object. -/
def ListOk (eof : α → Bool) (s : World α φ) : Prop :=
  (∀ v ∈ s.delivered, eof v = false) →
    match s.list with
    | .loop results => results.reverse = s.delivered
    | .returned list => list = s.accepted ∧ s.stream.finished = true
    | .raised _ => True

theorem ListOk.listNext (h : Inv s) (hl : ListOk eof s) {results} (hlist : s.list = .loop results)
    (consumer) :
    ListOk eof { s.deliver (s.stream.next consumer) with
      list := listLoop eof results (s.stream.next consumer).1 } := by
  unfold ListOk at hl
  rw [hlist] at hl
  intro heof
  obtain ⟨v, items, hi, hn⟩ | ⟨f, hi, hfin, hf, hn⟩ | ⟨hi, hfin, hf, hn⟩ | ⟨hi, hopen, hn⟩ :=
    s.stream.next_cases consumer <;> rw [hn] at heof ⊢
  · have hv : eof v = false := heof v (List.mem_append_right _ (List.mem_singleton.mpr rfl))
    have hresults := hl fun w hw => heof w (List.mem_append_left _ hw)
    simp only [listLoop, hv, World.deliver]
    rw [if_neg nofun]
    simpa using hresults
  · trivial
  · refine ⟨?_, hfin⟩
    have horder := h.order
    rw [hi, List.append_nil] at horder
    exact (hl heof).trans horder.symm
  · exact hl heof

theorem step_listOk {a} (h : Inv s) (hl : ListOk eof s) (hc : SingleConsumer s a)
    (hs : s.step eof a = some s') : ListOk eof s' := by
  cases a with
  | yield v =>
    cases hfin : s.stream.finished with
    | true =>
      simp only [step, Stream.yield_of_finished v hfin] at hs
      cases hs
      exact hl
    | false =>
      simp only [step, Stream.yield_of_open v hfin, if_true] at hs
      cases hs
      intro heof
      have hold := hl heof
      dsimp only
      split
      case h_1 results hlist =>
        rw [hlist] at hold
        exact hold
      case h_2 list hlist =>
        rw [hlist] at hold
        cases hfin.symm.trans hold.2
      case h_3 => trivial
  | finish failure =>
    cases hfin : s.stream.finished with
    | true =>
      simp only [step, Stream.finish_of_finished failure hfin] at hs
      cases hs
      exact hl
    | false =>
      simp only [step, Stream.finish_of_open failure hfin, if_true] at hs
      cases hs
      intro heof
      have hold := hl heof
      dsimp only
      split
      case h_1 results hlist =>
        rw [hlist] at hold
        exact hold
      case h_2 list hlist =>
        rw [hlist] at hold
        exact ⟨hold.1, rfl⟩
      case h_3 => trivial
  | next consumer => exact hc.elim
  | removeWaiter consumer =>
    cases hs
    exact hl
  | listNext consumer =>
    simp only [step] at hs
    split at hs
    case h_1 results hlist =>
      cases hs
      exact hl.listNext h hlist consumer
    case h_2 => cases hs

theorem list_returns (consumer n) {s : World α φ} {results : List α}
    (hlist : s.list = .loop results) (hn : s.stream.items.length = n)
    (hfin : s.stream.finished = true) (hf : s.stream.failure = none)
    (heof : ∀ v ∈ s.stream.items, eof v = false) :
    ∃ s', run (step eof) s (List.replicate (n + 1) (.listNext consumer)) = some s' ∧
      s'.list = .returned (results.reverse ++ s.stream.items) := by
  induction n generalizing s results with
  | zero =>
    have hi : s.stream.items = [] := List.length_eq_zero_iff.mp hn
    refine ⟨_, by simp only [List.replicate, run, step, hlist]; rfl, ?_⟩
    simp [Stream.next, Stream.tryNext, hi, hfin, hf, listLoop]
  | succ n ih =>
    obtain ⟨v, items, hi⟩ : ∃ v items, s.stream.items = v :: items :=
      List.exists_cons_of_length_eq_add_one hn
    rw [hi] at hn heof
    have hv : eof v = false := heof v List.mem_cons_self
    have hstep : s.step eof (.listNext consumer) = some { s with
        stream := { s.stream with items }
        delivered := s.delivered ++ [v]
        list := .loop (v :: results) } := by
      simp [step, hlist, Stream.next, Stream.tryNext, hi, World.deliver, listLoop, hv]
    obtain ⟨s', hrun, hdone⟩ := ih (s := { s with
        stream := { s.stream with items }
        delivered := s.delivered ++ [v]
        list := .loop (v :: results) }) rfl (Nat.succ.inj hn) hfin hf
      fun w hw => heof w (List.mem_cons_of_mem v hw)
    refine ⟨s', ?_, ?_⟩
    · rw [List.replicate_succ, run, hstep]
      exact hrun
    · rw [hdone, hi, List.reverse_cons, List.append_assoc]
      rfl

/-! ## Delivery -/

theorem Inv.failure_once (h : Inv s) {f : φ} (hf : s.finishedWith = some f) :
    (s.failures = [] ∧ s.stream.failure = some f) ∨ (s.failures = [f] ∧ s.stream.failure = none) := by
  have hfail := h.failure
  rw [hf] at hfail
  cases hs : s.stream.failure with
  | none =>
    rw [hs] at hfail
    exact .inr ⟨(hfail.trans (List.append_nil _)).symm, rfl⟩
  | some g =>
    rw [hs] at hfail
    cases hfs : s.failures with
    | nil =>
      rw [hfs] at hfail
      cases hfail
      exact .inl ⟨rfl, rfl⟩
    | cons e fs =>
      rw [hfs] at hfail
      have hlength := congrArg List.length hfail
      simp at hlength

theorem step_finished {a} (hfin : s.stream.finished = true) (hs : s.step eof a = some s') :
    s'.stream.finished = true ∧ s'.accepted = s.accepted := by
  have hdeliver : ∀ consumer, (s.deliver (s.stream.next consumer)).stream.finished = true ∧
      (s.deliver (s.stream.next consumer)).accepted = s.accepted := by
    intro consumer
    obtain ⟨v, items, -, hn⟩ | ⟨f, -, -, -, hn⟩ | ⟨-, -, -, hn⟩ | ⟨-, hopen, -⟩ :=
      s.stream.next_cases consumer
    · rw [hn]
      exact ⟨hfin, rfl⟩
    · rw [hn]
      exact ⟨hfin, rfl⟩
    · rw [hn]
      exact ⟨hfin, rfl⟩
    · cases hfin.symm.trans hopen
  cases a with
  | yield v =>
    simp only [step, Stream.yield_of_finished v hfin] at hs
    cases hs
    exact ⟨hfin, rfl⟩
  | finish failure =>
    simp only [step, Stream.finish_of_finished failure hfin] at hs
    cases hs
    exact ⟨hfin, rfl⟩
  | next consumer =>
    cases hs
    exact hdeliver consumer
  | removeWaiter consumer =>
    cases hs
    exact ⟨hfin, rfl⟩
  | listNext consumer =>
    simp only [step] at hs
    split at hs
    · cases hs
      exact hdeliver consumer
    · cases hs

/-- What a stream promises to its producers and consumers. -/
structure Delivers (eof : α → Bool) (s : World α φ) : Prop where
  /-- The values come out in the order of the yields, each once. -/
  inOrder : s.delivered <+: s.accepted
  /-- Of the calls of `async-stream-finish!`, one returns `#t`. -/
  oneFinish : s.finishes ≠ [] → s.finishes.count true = 1
  /-- After it no yield is accepted. -/
  noYield : true ∈ s.finishes → ∀ (later : List (Action α φ)) (s' : World α φ),
    run (step eof) s later = some s' → s'.accepted = s.accepted
  /-- The failure is signalled to the first call that finds no value, -/
  failureNext : ∀ f, s.finishedWith = some f → s.failures = [] →
    s.delivered = s.accepted → s.stream.tryNext.1 = .failed f
  /-- once, after all values. -/
  failureOnce : s.failures ≠ [] →
    ∃ f, s.finishedWith = some f ∧ s.failures = [f] ∧ s.delivered = s.accepted

/-- What `async-stream->list` returns. -/
structure Lists (eof : α → Bool) (s : World α φ) : Prop where
  exact : ∀ list, s.list = .returned list → list = s.accepted
  /-- It does return when the stream has finished without a failure. -/
  returns : ∀ results consumer, s.list = .loop results → true ∈ s.finishes →
    s.finishedWith = none → ∃ n s',
      run (step eof) s (List.replicate n (.listNext consumer)) = some s' ∧
        s'.list = .returned s.accepted

theorem Inv.finished_iff (h : Inv s) : true ∈ s.finishes ↔ s.stream.finished = true := by
  have hcount := h.finishes
  rw [← List.count_pos_iff, hcount]
  cases s.stream.finished <;> simp

theorem Inv.drained (h : Inv s) : s.delivered = s.accepted ↔ s.stream.items = [] := by
  rw [h.order]
  exact List.self_eq_append_right

theorem Inv.delivers (h : Inv s) (eof) : Delivers eof s := by
  refine ⟨⟨s.stream.items, h.order.symm⟩, ?_, ?_, ?_, ?_⟩
  · intro hne
    rw [h.finishes, h.asked.resolve_left hne]
    rfl
  · intro hmem later s' hr
    have hfin := h.finished_iff.mp hmem
    have hkeep : s'.stream.finished = true ∧ s'.accepted = s.accepted :=
      run_invariant' (I := fun x => x.stream.finished = true ∧ x.accepted = s.accepted)
        (fun hi hs => ⟨(step_finished hi.1 hs).1, (step_finished hi.1 hs).2.trans hi.2⟩)
        ⟨hfin, rfl⟩ hr
    exact hkeep.2
  · intro f hf hnone hall
    have hfin : s.stream.finished = true := by
      cases hopen : s.stream.finished with
      | true => rfl
      | false =>
        rw [h.opened hopen] at hf
        cases hf
    obtain ⟨-, hfail⟩ | ⟨hone, -⟩ := h.failure_once hf
    · simp [Stream.tryNext, h.drained.mp hall, hfin, hfail]
    · rw [hnone] at hone
      cases hone
  · intro hne
    cases hf : s.finishedWith with
    | none =>
      have hfail := h.failure
      rw [hf] at hfail
      exact absurd (List.append_eq_nil_iff.mp hfail.symm).1 hne
    | some f =>
      obtain ⟨hnone, -⟩ | ⟨hone, -⟩ := h.failure_once hf
      · exact absurd hnone hne
      · exact ⟨f, rfl, hone, h.drained.mpr (h.last hne).2⟩

theorem Inv.lists (h : Inv s) (hl : ListOk eof s) (heof : ∀ v ∈ s.accepted, eof v = false) :
    Lists eof s := by
  have hsub : ∀ v ∈ s.delivered, eof v = false := by
    intro v hv
    refine heof v ?_
    rw [h.order]
    exact List.mem_append_left _ hv
  have hold := hl hsub
  refine ⟨?_, ?_⟩
  · intro list hlist
    rw [hlist] at hold
    exact hold.1
  · intro results consumer hlist hmem hnone
    rw [hlist] at hold
    have hfail := h.failure
    rw [hnone] at hfail
    have hf : s.stream.failure = none := by
      cases hs : s.stream.failure with
      | none => rfl
      | some f =>
        rw [hs] at hfail
        cases (List.append_eq_nil_iff.mp hfail.symm).2
    obtain ⟨s', hrun, hdone⟩ := list_returns consumer s.stream.items.length hlist rfl
      (h.finished_iff.mp hmem) hf fun v hv => heof v (by
        rw [h.order]
        exact List.mem_append_right _ hv)
    refine ⟨_, s', hrun, ?_⟩
    rw [hdone, hold, ← h.order]

/-- **Async streams deliver in order, exactly once, and the failure last and
once**; `async-stream->list`, as the only consumer, returns the accepted values
when none of them is an EOF object. -/
theorem async_stream_sound (eof : α → Bool) (actions : List (Action α φ)) {s : World α φ}
    (hr : run (step eof) initial actions = some s) :
    Delivers eof s ∧ (Along (step eof) SingleConsumer initial actions →
      (∀ v ∈ s.accepted, eof v = false) → Lists eof s) := by
  have h : Inv s := run_invariant' step_inv initial_inv hr
  refine ⟨h.delivers eof, ?_⟩
  intro hc heof
  have hboth : Inv s ∧ ListOk eof s := run_invariant (I := fun x => Inv x ∧ ListOk eof x)
    (fun hi hc hs => ⟨step_inv hi.1 hs, step_listOk hi.1 hi.2 hc hs⟩)
    ⟨initial_inv, fun _ => rfl⟩ hc hr
  exact h.lists hboth.2 heof

/-- Two values and a failure, with two consumers. -/
theorem async_stream_sound_failure :
    ∃ s : World Nat String, run (step (· == 0))
        initial [.next 1, .yield 5, .next 1, .yield 6, .finish (some "failed"), .yield 7,
          .finish none, .next 2, .next 2] = some s ∧
      s.failures = ["failed"] ∧
      Delivers (· == 0) s ∧ (Along (step (· == 0)) SingleConsumer initial [.next 1, .yield 5,
          .next 1, .yield 6, .finish (some "failed"), .yield 7, .finish none, .next 2, .next 2] →
        (∀ v ∈ s.accepted, (v == 0) = false) → Lists (· == 0) s) := by
  refine ⟨_, rfl, rfl, ?_⟩
  exact async_stream_sound (· == 0) [.next 1, .yield 5, .next 1, .yield 6,
    .finish (some "failed"), .yield 7, .finish none, .next 2, .next 2] rfl

/-- The producer yields an EOF object between two values: the list ends there. -/
theorem async_stream_list_stops_at_eof :
    ∃ s : World Nat String, run (step (· == 0))
        initial [.yield 5, .yield 0, .yield 6, .finish none, .listNext 1, .listNext 1] = some s ∧
      Along (step (· == 0)) SingleConsumer (initial : World Nat String) [.yield 5, .yield 0,
        .yield 6, .finish none, .listNext 1, .listNext 1] ∧
      s.accepted = [5, 0, 6] ∧ s.list = .returned [5] :=
  ⟨_, rfl, by decide, rfl, rfl⟩

end World

end MitScheme.Runtime.AsyncStream
