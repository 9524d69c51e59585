import MitScheme.Runtime.CondVarList

/-! # Runs of condition variables

The waiter list in every reachable state, what a signal marks, and what a wait
returns. -/

namespace MitScheme.Runtime.CondVar
open Lib.LinkedQueue (Links)
open Lib.DoublyLinked Lib.Machine Function

namespace Condvar
variable {τ : Type} [LinearOrder τ] {s s' : Condvar τ} {t u : ThreadId} {w : WaiterId}
  {l l' a b : List WaiterId} {p : Phase τ} {x : Wait τ}

/-! ## Steps and runs -/

/-- A wait tests the clock only after its timeout, or at that time with its
waiter not done; and no waiter is marked whose thread has given up. -/
def Allowed (s : Condvar τ) : Action τ → Prop
  | .advance t =>
    match s.phase t with
    | .testing x =>
      ∀ timeout ∈ x.timeout,
        timeout < s.clock ∨ timeout = s.clock ∧ s.done x.waiter = false
    | .signalling _ w _ => s.MarksWaiting w
    | _ => True
  | _ => True

instance (s : Condvar τ) (w : WaiterId) : Decidable (s.MarksWaiting w) := by
  unfold MarksWaiting
  infer_instance

instance (s : Condvar τ) (a : Action τ) : Decidable (s.Allowed a) := by
  unfold Allowed
  split
  · split <;> infer_instance
  · infer_instance

theorem make_inv (clock : τ) : Inv (make clock) [] :=
  ⟨make_linked clock, nofun, List.Sublist.refl [], List.nodup_nil, nofun, fun _ _ => rfl, nofun,
    nofun, fun _ => trivial, Nat.le_refl 2⟩

theorem Inv.move (h : Inv s l) (hold : ¬ (s.phase t).Locked) (owner)
    (howner : ∀ u ≠ t, ∀ m, s.owner m = some u → owner m = some u)
    (hwaiting : ∀ w, (s.phase t).Waiting w → p.Waiting w)
    (hp : ({ s with owner }.setPhase t p).PhaseOk l t p) :
    Inv ({ s with owner }.setPhase t p) l := by
  refine h.phaseStep rfl (fun _ _ => rfl) (Nat.le_refl _) howner (le_refl _)
    (fun _ _ => Iff.rfl) (fun hl => absurd (h.lock t hl) hold) hwaiting ?_ hp
  intro w loop he
  exact absurd (he ▸ trivial) hold

theorem Inv.moveOn (h : Inv s l) (hold : ¬ (s.phase t).Locked)
    (hwaiting : ∀ w, (s.phase t).Waiting w → p.Waiting w)
    (hp : (s.setPhase t p).PhaseOk l t p) : Inv (s.setPhase t p) l :=
  h.move hold s.owner (fun _ _ _ ho => ho) hwaiting hp

theorem owner_update {owner : MutexId → Option ThreadId} {m m'} (o)
    (hm : owner m = some t ∨ owner m = none) (hu : u ≠ t) (ho : owner m' = some u) :
    update owner m o m' = some u := by
  have hne : m' ≠ m := by
    rintro rfl
    rw [ho] at hm
    obtain hm | hm := hm
    · exact hu (Option.some.inj hm)
    · cases hm
  rw [update_of_ne hne]
  exact ho

theorem Inv.moveLocked (h : Inv s l) (hold : s.lock = some t)
    (hnot : ∀ w, ¬ (s.phase t).Waiting w) (hrem : ∀ w loop, s.phase t ≠ .removing w loop) (lock)
    (hlock : lock = some t ∧ p.Locked ∨ lock = none)
    (hp : ({ s with lock }.setPhase t p).PhaseOk l t p) : Inv ({ s with lock }.setPhase t p) l := by
  refine h.phaseStep rfl (fun _ _ => rfl) (Nat.le_refl _) (fun _ _ _ ho => ho) (le_refl _) ?_ ?_
    (fun w hw => absurd hw (hnot w)) (fun w loop he => absurd he (hrem w loop)) hp
  · intro u hu
    refine iff_of_false ?_ ?_
    · intro hs
      rw [hold] at hs
      exact hu (Option.some.inj hs).symm
    · rintro rfl
      obtain ⟨hl, -⟩ | hl := hlock
      · exact hu (Option.some.inj hl)
      · cases hl
  · rintro rfl
    obtain ⟨-, hl⟩ | hl := hlock
    · exact hl
    · cases hl

theorem Inv.advance (h : Inv s l) (ha : s.Allowed (.advance t)) (hs : s.advance t = some s') :
    ∃ l', Inv s' l' := by
  have hok := h.phase t
  unfold Condvar.advance at hs
  unfold Allowed at ha
  cases hp : s.phase t with
  | outside last =>
    rw [hp] at hs
    cases hs
  | enqueuing x =>
    simp only [hp] at hs
    split at hs
    case isTrue hfree =>
      obtain ⟨s₁, hs₁, h'⟩ := h.enqueue hp hfree
      rw [hs₁] at hs
      cases hs
      exact ⟨_, h'⟩
    case isFalse => cases hs
  | releasing x =>
    simp only [hp] at hs hok
    rw [if_pos hok.2] at hs
    cases hs
    refine ⟨l, h.move (by rw [hp]; exact id) _
      (fun u hu m ho => owner_update none (.inl hok.2) hu ho) (fun w hw => ?_)
      ⟨hok.1.thread, hok.1.enqueued, hok.1.waiting⟩⟩
    rw [hp] at hw
    exact hw
  | testing x =>
    simp only [hp] at hs hok ha
    have hchecking : Inv (s.setPhase t (.checking x)) l :=
      h.moveOn (by rw [hp]; exact id) (by rw [hp]; exact fun _ hw => hw)
        ⟨hok.thread, hok.enqueued, hok.waiting⟩
    split at hs
    case h_1 timeout htimeout =>
      split at hs
      case isTrue hle =>
        cases hs
        obtain hlt | ⟨heq, hdone⟩ := ha timeout htimeout
        · exact absurd hle (not_le_of_gt hlt)
        · exact ⟨l, h.moveOn (by rw [hp]; exact id) (by rw [hp]; exact fun _ hw => hw)
            ⟨⟨hok.thread, hok.enqueued, hok.waiting⟩, hdone.symm,
              fun _ => ⟨timeout, htimeout, le_of_eq heq⟩⟩⟩
      case isFalse =>
        cases hs
        exact ⟨l, hchecking⟩
    case h_2 =>
      cases hs
      exact ⟨l, hchecking⟩
  | checking x =>
    simp only [hp] at hs hok
    cases hs
    split
    case isTrue hdone =>
      exact ⟨l, h.moveOn (by rw [hp]; exact id) (by rw [hp]; exact fun _ hw => hw)
        ⟨⟨hok.thread, hok.enqueued, hok.waiting⟩, hdone.symm, nofun⟩⟩
    case isFalse =>
      exact ⟨l, h.moveOn (by rw [hp]; exact id) (by rw [hp]; exact fun _ hw => hw)
        ⟨hok.thread, hok.enqueued, hok.waiting⟩⟩
  | suspended x =>
    simp only [hp] at hs hok
    cases hs
    exact ⟨l, h.moveOn (by rw [hp]; exact id) (by rw [hp]; exact fun _ hw => hw)
      ⟨hok.thread, hok.enqueued, hok.waiting⟩⟩
  | cleaning x value =>
    simp only [hp] at hs hok
    split at hs
    case isFalse => cases hs
    case isTrue hfree =>
      obtain ⟨hhead, htail⟩ := h.not_sentinel hok.1.enqueued
      by_cases hd : s.waiterDetached x.waiter = true
      · rw [if_pos hd] at hs
        cases hs
        have hoff := (h.linked.waiterDetached_iff hhead htail).mp hd
        refine ⟨l, h.clean hp hfree h.linked (List.Sublist.refl l) fun w => ?_⟩
        refine (and_iff_left_of_imp fun hw => ?_).symm
        rintro rfl
        exact hoff hw
      · rw [if_neg hd] at hs
        have hmem : x.waiter ∈ l := by
          by_contra hn
          exact hd ((h.linked.waiterDetached_iff hhead htail).mpr hn)
        obtain ⟨a, b, rfl⟩ := List.append_of_mem hmem
        obtain ⟨next, previous, hs₁, hlinked⟩ := h.linked.removeWaiter
        rw [hs₁] at hs
        cases hs
        have hn := (List.nodup_cons.mp (List.nodup_middle.mp h.linked.nodup)).1
        refine ⟨a ++ b, h.clean hp hfree hlinked
          (List.Sublist.append_left (List.sublist_cons_self _ b) a) fun w => ?_⟩
        constructor
        · intro hw
          refine ⟨?_, ?_⟩
          · exact (List.mem_append.mp hw).elim (fun hm => List.mem_append_left _ hm)
              fun hm => List.mem_append_right _ (List.mem_cons_of_mem _ hm)
          · rintro rfl
            exact hn hw
        · rintro ⟨hw, hne⟩
          simpa [hne] using hw
  | relocking x value =>
    simp only [hp] at hs hok
    split at hs
    case isTrue hfree =>
      cases hs
      exact ⟨l, h.move (by rw [hp]; exact id) _
        (fun u hu m ho => owner_update (some t) (.inr hfree) hu ho)
        (by rw [hp]; exact fun _ hw => hw.elim)
        ⟨hok.enqueued, hok.off, hok.value.done, hok.value.timeout⟩⟩
    case isFalse => cases hs
  | locking broadcast =>
    simp only [hp] at hs
    split at hs
    case isTrue hfree =>
      have hnext := h.linked.next_head
      obtain ⟨v, hv⟩ : ∃ v, (l ++ [waiterTail]).head? = some v := by cases l <;> exact ⟨_, rfl⟩
      rw [hnext, hv] at hs
      cases hs
      refine ⟨l, h.phaseStep rfl (fun _ _ => rfl) (Nat.le_refl _) (fun _ _ _ ho => ho) (le_refl _)
        ?_ (fun _ => trivial) (by rw [hp]; exact fun _ hw => hw.elim) (by rw [hp]; nofun) ⟨rfl, hv⟩⟩
      intro u hu
      rw [hfree]
      refine iff_of_false nofun fun heq => hu (Option.some.inj heq).symm
    case isFalse => cases hs
  | scanning broadcast w =>
    simp only [hp] at hs hok
    obtain ⟨hlock, hhead⟩ := hok
    have hnot : ∀ w, ¬ (s.phase t).Waiting w := by
      rw [hp]
      exact fun _ hw => hw
    have hrem : ∀ w loop, s.phase t ≠ .removing w loop := by
      rw [hp]
      nofun
    split at hs
    · cases hs
      exact ⟨l, h.moveLocked hlock hnot hrem none (.inr rfl) trivial⟩
    case isFalse htail =>
      obtain ⟨l', rfl⟩ : ∃ l', l = w :: l' := by
        cases l with
        | nil =>
          cases hhead
          exact absurd rfl htail
        | cons v l' =>
          cases hhead
          exact ⟨l', rfl⟩
      have hnext : s.next w = (l' ++ [waiterTail]).head? := h.linked.next_mem (a := [])
      split at hs
      case isTrue hdone =>
        cases hs
        refine ⟨w :: l', ?_⟩
        -- The waiter that is done would be removed by the owner of the lock.
        obtain ⟨u, loop, hu⟩ := h.removed w List.mem_cons_self hdone
        obtain rfl := h.locked_unique (t := t) (u := u) (by rw [hp]; trivial) (by rw [hu]; trivial)
        exact absurd hu (hrem w loop)
      case isFalse hdone =>
        cases hs
        exact ⟨w :: l', h.moveLocked hlock hnot hrem s.lock (.inl ⟨hlock, trivial⟩)
          ⟨hlock, eq_false_of_ne_true hdone, l', rfl, hnext⟩⟩
  | signalling broadcast w next =>
    simp only [hp] at hs ha
    cases hs
    exact ⟨l, h.mark hp ha⟩
  | removing w loop =>
    obtain ⟨s₁, l', hs₁, hnone, hsome⟩ := h.remove hp
    simp only [hp, hs₁] at hs
    cases loop with
    | none =>
      cases hs
      exact ⟨l', hnone rfl⟩
    | some r =>
      obtain ⟨v, hv, h'⟩ := hsome r.1 r.2 rfl
      obtain ⟨broadcast, next⟩ := r
      cases hv
      cases hs
      exact ⟨l', h'⟩
  | failed =>
    rw [hp] at hs
    cases hs

theorem Inv.wait (h : Inv s l) {mutex timeout relock}
    (hs : s.step (.wait t mutex timeout relock) = some s') : Inv s' l := by
  simp only [step] at hs
  split at hs
  case h_2 => cases hs
  case h_1 last hp =>
    split at hs
    case isFalse => cases hs
    case isTrue howner =>
      cases hs
      have hfresh : s.waiters ∉ s.enqueued := fun hm => Nat.lt_irrefl _ (h.range _ hm).2
      have hs' : { s with
          thread := update s.thread s.waiters t
          waiters := s.waiters + 1
          lock := s.lock
          owner := s.owner
          clock := s.clock }.setPhase t (.enqueuing ⟨s.waiters, mutex, timeout, relock⟩) = _ := rfl
      refine h.phaseStep hs'.symm ?_ (Nat.le_succ _) (fun _ _ _ ho => ho) (le_refl _)
        (fun _ _ => Iff.rfl) ?_ ?_ ?_ ?_
      · intro w hw
        exact update_of_ne (Nat.ne_of_lt hw) _ _
      · intro hl
        have := h.lock t hl
        rw [hp] at this
        exact this.elim
      · rw [hp]
        exact fun _ hw => hw.elim
      · rw [hp]
        nofun
      · exact ⟨update_self _ _ _, h.sentinels, Nat.lt_succ_self _, hfresh, howner⟩

theorem Inv.setOwner (h : Inv s l) {last} (hp : s.phase t = .outside last) {m} (o)
    (hm : s.owner m = some t ∨ s.owner m = none) :
    Inv { s with owner := update s.owner m o } l := by
  have hsame : { s with owner := update s.owner m o } =
      { s with owner := update s.owner m o }.setPhase t (s.phase t) := by
    simp [setPhase]
  rw [hsame]
  refine h.move (by rw [hp]; exact id) _ (fun u hu m' ho => owner_update o hm hu ho)
    (fun _ hw => hw) ?_
  have hok := h.phase t
  rw [hp] at hok ⊢
  cases last with
  | none => trivial
  | some r =>
    have hover : s.Over l r.1 r.2 := hok
    exact ⟨hover.enqueued, hover.off, hover.value.done, hover.value.timeout⟩

theorem Inv.tick (h : Inv s l) {clock} (hle : s.clock ≤ clock) : Inv { s with clock } l := by
  have hsame : { s with clock } = { s with clock }.setPhase 0 (s.phase 0) := by simp [setPhase]
  rw [hsame]
  refine h.phaseStep rfl (fun _ _ => rfl) (Nat.le_refl _) (fun _ _ _ ho => ho) hle
    (fun _ _ => Iff.rfl) (h.lock 0) (fun _ hw => hw) (fun _ _ he => he) ?_
  refine (h.phase 0).frame h.range ⟨fun _ _ => rfl, Nat.le_refl _, fun _ hw => hw,
    fun _ _ hw => hw, fun _ ho => ho, hle, fun _ _ hw => hw, fun _ _ hw => hw⟩ (fun _ _ _ => rfl) ?_
  intro hl
  exact (h.phase 0).congr_locked hl rfl rfl

theorem Inv.step {a} (h : Inv s l) (ha : s.Allowed a) (hs : s.step a = some s') :
    ∃ l', Inv s' l' := by
  cases a with simp only [Condvar.step] at hs
  | wait t mutex timeout relock => exact ⟨l, h.wait hs⟩
  | signal t broadcast =>
    split at hs
    case h_2 => cases hs
    case h_1 last hp =>
      cases hs
      exact ⟨l, h.moveOn (by rw [hp]; exact id) (by rw [hp]; exact fun _ hw => hw.elim) trivial⟩
  | advance t => exact h.advance ha hs
  | lockMutex t mutex =>
    split at hs
    case h_2 => cases hs
    case h_1 last hp =>
      split at hs
      case isFalse => cases hs
      case isTrue hfree =>
        cases hs
        exact ⟨l, h.setOwner hp (some t) (.inr hfree)⟩
  | unlockMutex t mutex =>
    split at hs
    case h_2 => cases hs
    case h_1 last hp =>
      split at hs
      case isFalse => cases hs
      case isTrue howner =>
        cases hs
        exact ⟨l, h.setOwner hp none (.inl howner)⟩
  | tick clock =>
    split at hs
    case isFalse => cases hs
    case isTrue hle =>
      cases hs
      exact ⟨l, h.tick hle⟩

/-- What a condition variable promises about a state in which the waiters of `l`
are on its list. -/
structure CondvarOk (s : Condvar τ) (l : List WaiterId) : Prop where
  linked : DLinked s.previous s.next (waiterHead :: l ++ [waiterTail])
  /-- The list has the waiters of the waits that have not cleaned up and are not
  done, and the one that the signaller removes, -/
  waiting : ∀ w, w ∈ l ↔ (s.phase (s.thread w)).Waiting w ∧
    (s.done w = false ∨ ∃ t loop, s.phase t = .removing w loop)
  /-- in the order in which they were enqueued, -/
  order : l.Sublist s.enqueued
  /-- each once. -/
  once : s.enqueued.Nodup
  /-- A wait returns whether its waiter is done, and false after its timeout only. -/
  value : ∀ t x v, (s.phase t).Value x v →
    v = s.done x.waiter ∧
      (v = false → ∃ timeout, x.timeout = some timeout ∧ timeout ≤ s.clock)
  noError : ∀ t, s.phase t ≠ .failed

theorem PhaseOk.waits (h : s.PhaseOk l t p) (hw : p.Waiting w) : w ∈ l ∨ s.done w = true := by
  cases p with
  | releasing x => exact hw ▸ h.1.waiting
  | testing x => exact hw ▸ Waits.waiting h
  | checking x => exact hw ▸ Waits.waiting h
  | suspended x => exact hw ▸ Waits.waiting h
  | cleaning x value => exact hw ▸ h.1.waiting
  | _ => exact hw.elim

theorem PhaseOk.valueOk {v} (h : s.PhaseOk l t p) (hv : p.Value x v) : s.ValueOk x v := by
  cases p with
  | cleaning y value =>
    obtain ⟨rfl, rfl⟩ := hv
    exact h.2
  | relocking y value =>
    obtain ⟨rfl, rfl⟩ := hv
    exact Over.value h
  | outside last =>
    cases last with
    | none => exact hv.elim
    | some r =>
      obtain ⟨rfl, rfl⟩ := hv
      exact Over.value h
  | _ => exact hv.elim

theorem Inv.condvarOk (h : Inv s l) : CondvarOk s l := by
  refine ⟨h.linked.dlinked, ?_, h.order, h.once, ?_, ?_⟩
  · intro w
    constructor
    · intro hw
      refine ⟨h.waiting w hw, ?_⟩
      cases hd : s.done w with
      | false => exact .inl rfl
      | true => exact .inr (h.removed w hw hd)
    · rintro ⟨hwait, hd | ⟨t, loop, ht⟩⟩
      · refine ((h.phase _).waits hwait).resolve_right ?_
        rw [hd]
        nofun
      · have hok := h.phase t
        rw [ht] at hok
        obtain ⟨-, -, l', rfl, -⟩ := hok
        exact List.mem_cons_self
  · intro t x v hv
    have := (h.phase t).valueOk hv
    exact ⟨this.done, this.timeout⟩
  · intro t ht
    have := h.phase t
    rw [ht] at this
    exact this

theorem Inv.allowed {a} (h : Inv s l) (hs : s.step a = some s') (hok : CondvarOk s' l') :
    s.Allowed a := by
  unfold Allowed
  split
  case h_2 => trivial
  case h_1 t =>
    have hs : s.advance t = some s' := hs
    unfold Condvar.advance at hs
    split
    case h_1 x hp =>
      intro timeout ht
      simp only [hp, Option.mem_def.mp ht] at hs
      split at hs
      case isTrue hle =>
        cases hs
        obtain ⟨hdone, htime⟩ := hok.value t x false (by
          show (update s.phase t _ t).Value x false
          rw [update_self]
          exact ⟨rfl, rfl⟩)
        obtain ⟨timeout', ht', hle'⟩ := htime rfl
        rw [ht] at ht'
        cases ht'
        exact .inr ⟨le_antisymm hle' hle, hdone.symm⟩
      case isFalse hle => exact .inl (lt_of_not_ge hle)
    case h_2 broadcast w next hp =>
      simp only [hp] at hs
      cases hs
      have hmem : w ∈ l := by
        have := h.phase t
        rw [hp] at this
        obtain ⟨-, -, l', rfl, -⟩ := this
        exact List.mem_cons_self
      have hwait := h.waiting w hmem
      unfold MarksWaiting
      by_contra hgave
      -- The thread has given up, and now its waiter is done.
      cases hpu : s.phase (s.thread w) with
      | cleaning x value =>
        rw [hpu] at hwait hgave
        have hw : x.waiter = w := hwait
        have hvalue : value = false := by
          cases value with
          | false => rfl
          | true => exact absurd rfl hgave
        have hne : s.thread w ≠ t := by
          intro heq
          rw [heq, hp] at hpu
          cases hpu
        obtain ⟨hdone, -⟩ := hok.value (s.thread w) x value (by
          show (update s.phase t _ (s.thread w)).Value x value
          rw [update_of_ne hne, hpu]
          exact ⟨rfl, rfl⟩)
        rw [hw, hvalue] at hdone
        have : false = update s.done w true w := hdone
        rw [update_self] at this
        cases this
      | _ =>
        rw [hpu] at hgave
        exact hgave rfl
    case h_3 => trivial

theorem advance_done (hs : s.advance t = some s') :
    s'.done = s.done ∨ ∃ broadcast w next, s.phase t = .signalling broadcast w next ∧
      s' = { s with done := update s.done w true }.setPhase t
        (.removing w (if broadcast then some (broadcast, next) else none)) := by
  unfold Condvar.advance at hs
  cases hp : s.phase t <;> simp only [hp] at hs
  case signalling broadcast w next =>
    cases hs
    exact .inr ⟨broadcast, w, next, rfl, rfl⟩
  all_goals refine .inl ?_
  case enqueuing x =>
    split at hs
    · split at hs
      case h_1 s₁ hs₁ =>
        cases hs
        have := enqueueWaiter_done hs₁
        exact this
      case h_2 =>
        cases hs
        rfl
    · cases hs
  case cleaning x value =>
    split at hs
    · split at hs
      · cases hs
        rfl
      · split at hs
        case h_1 s₁ hs₁ =>
          cases hs
          have := removeWaiter_done hs₁
          exact this
        case h_2 =>
          cases hs
          rfl
    · cases hs
  case removing w loop =>
    split at hs
    case h_1 s₁ hs₁ =>
      cases hs
      have := removeWaiter_done hs₁
      exact this
    case h_2 s₁ broadcast next hs₁ =>
      cases hs
      have := removeWaiter_done hs₁
      exact this
    case h_3 =>
      cases hs
      rfl
  all_goals grind [setPhase]

theorem marked_of_step {a} (hs : s.step a = some s') (hold : s.done w = false)
    (hnew : s'.done w = true) :
    ∃ t broadcast next, a = .advance t ∧ s.phase t = .signalling broadcast w next ∧
      s'.phase t = .removing w (if broadcast then some (broadcast, next) else none) := by
  have hne : s'.done ≠ s.done := by
    intro heq
    rw [heq, hold] at hnew
    cases hnew
  cases a with
  | advance t =>
    obtain heq | ⟨broadcast, v, next, hp, rfl⟩ := advance_done hs
    · exact absurd heq hne
    · have hvw : w = v := by
        by_contra hvw
        have hsame : update s.done v true w = true := hnew
        rw [update_of_ne hvw, hold] at hsame
        cases hsame
      subst hvw
      exact ⟨t, broadcast, next, rfl, hp, update_self _ _ _⟩
  | _ =>
    refine absurd ?_ hne
    simp only [step] at hs
    grind [setPhase]

/-- **Condition variables**: in every run in which a wait tests the clock only
after its timeout, and no waiter is marked whose thread has given up, the waiters
that wait are on a list in order, a step marks only the first of them, and a wait
returns true when its waiter was marked, and false only after its timeout and
when it was not. The step that does otherwise breaks this. -/
theorem condition_variable_sound (clock : τ) (actions : List (Action τ)) {s : Condvar τ}
    (hr : run step (make clock) actions = some s)
    (ha : Along step Allowed (make clock) actions) :
    ∃ l, CondvarOk s l ∧ ∀ a s', s.step a = some s' →
      ((∃ l', CondvarOk s' l') ↔ s.Allowed a) ∧
      (∀ w, s.done w = false → s'.done w = true →
        l.head? = some w ∧ ∃ t broadcast next, a = .advance t ∧
          s.phase t = .signalling broadcast w next ∧
          s'.phase t = .removing w (if broadcast then some (broadcast, next) else none)) ∧
      ∀ t w, a = .advance t → s.phase t = .removing w none → s'.phase t = .outside none := by
  obtain ⟨l, h⟩ : ∃ l, Inv s l :=
    run_invariant (I := fun s => ∃ l, Inv s l)
      (fun hi hc hs => hi.elim fun _ hl => hl.step hc hs) ⟨[], make_inv clock⟩ ha hr
  refine ⟨l, h.condvarOk, ?_⟩
  intro a s' hs
  refine ⟨⟨?_, ?_⟩, ?_, ?_⟩
  · rintro ⟨l', hok⟩
    exact h.allowed hs hok
  · intro hallowed
    obtain ⟨l', h'⟩ := h.step hallowed hs
    exact ⟨l', h'.condvarOk⟩
  · intro w hold hnew
    obtain ⟨t, broadcast, next, rfl, hp, hp'⟩ := marked_of_step hs hold hnew
    refine ⟨?_, t, broadcast, next, rfl, hp, hp'⟩
    have hok := h.phase t
    rw [hp] at hok
    obtain ⟨-, -, l', rfl, -⟩ := hok
    rfl
  · rintro t w rfl hp
    obtain ⟨s₁, l', hs₁, -, -⟩ := h.remove hp
    have hs : s.advance t = some s' := hs
    unfold Condvar.advance at hs
    simp only [hp, hs₁] at hs
    cases hs
    exact update_self _ _ _

/-- A wait without a timeout, and a signal. -/
theorem condition_variable_sound_signal :
    ∃ s : Condvar Nat, run step (make 0) [.lockMutex 0 5, .wait 0 5 none true, .advance 0,
        .advance 0, .advance 0, .advance 0, .signal 1 false, .advance 1, .advance 1, .advance 1,
        .advance 1, .advance 0, .advance 0, .advance 0, .advance 0, .advance 0] = some s ∧
      s.phase 0 = .outside (some (⟨2, 5, none, true⟩, true)) ∧ ∃ l, CondvarOk s l := by
  have hrun : ∃ s : Condvar Nat, run step (make 0) [.lockMutex 0 5, .wait 0 5 none true,
      .advance 0, .advance 0, .advance 0, .advance 0, .signal 1 false, .advance 1, .advance 1,
      .advance 1, .advance 1, .advance 0, .advance 0, .advance 0, .advance 0, .advance 0] = some s ∧
      s.phase 0 = .outside (some (⟨2, 5, none, true⟩, true)) := ⟨_, rfl, rfl⟩
  obtain ⟨s, hs, hp⟩ := hrun
  exact ⟨s, hs, hp, (condition_variable_sound 0 _ hs (by decide)).imp fun _ h => h.1⟩

/-- At time 0 a wait until time 10 returns false at once, with no signal. -/
theorem condition_variable_returns_early :
    ∃ s : Condvar Nat, run step (make 0) [.lockMutex 0 5, .wait 0 5 (some 10) true, .advance 0,
        .advance 0, .advance 0, .advance 0, .advance 0] = some s ∧
      s.clock = 0 ∧ s.phase 0 = .outside (some (⟨2, 5, some 10, true⟩, false)) ∧
      ∀ l, ¬ CondvarOk s l := by
  refine ⟨_, rfl, rfl, rfl, ?_⟩
  intro l hok
  obtain ⟨-, htime⟩ := hok.value 0 ⟨2, 5, some 10, true⟩ false ⟨rfl, rfl⟩
  obtain ⟨timeout, ht, hle⟩ := htime rfl
  cases ht
  exact absurd hle (by decide)

end Condvar
end MitScheme.Runtime.CondVar
