import MitScheme.Lib.Machine
import Mathlib.Data.List.Nodup
import Mathlib.Data.List.Perm.Subperm

/-! # Thread barriers

`thread-barrier-wait` of `thread-barrier.scm` under any interleaving. The fields
of a barrier are read and written only by the owner of its lock, so what a call
does between two operations on the lock is one step.
`condition-variable-wait!` gives the lock up and comes back with it, after a
broadcast or for no reason at all. -/

namespace MitScheme.Runtime.ThreadBarrier
open Lib.Machine Function

abbrev ThreadId := Nat

/-! ## The barrier and its callers -/

/-- Where a thread is in `thread-barrier-wait`. The number of a call is its
place in the order in which the calls first get the lock. -/
inductive Activity
  | outside
  /-- In `lock-thread-mutex`, on the way into `with-thread-mutex-lock`. -/
  | locking
  /-- Before the assertions. -/
  | entered
  /-- At the test of the loop, with the `generation` it read. -/
  | testing (call generation : Nat)
  /-- In `condition-variable-wait!`. -/
  | waiting (call generation : Nat)
  /-- With its value, before `unlock-thread-mutex`. -/
  | leaving (call generation : Nat) (value : Bool)
  /-- An assertion has failed. -/
  | failed
  deriving DecidableEq

def Activity.Holds : Activity → Prop
  | .entered | .testing .. | .leaving .. | .failed => True
  | .outside | .locking | .waiting .. => False

structure Return where
  call : Nat
  generation : Nat
  value : Bool

/-- The mutable fields of the barrier, its lock, and the threads. `calls` is a
history of the generations that the calls have read, `returns` one of the calls
that have returned. -/
structure Barrier where
  current : Nat
  generation : Nat
  lock : Option ThreadId
  activity : ThreadId → Activity
  calls : List Nat
  returns : List Return

inductive Action
  /-- A thread calls `thread-barrier-wait`. -/
  | call (t : ThreadId)
  /-- A thread gets the lock it waits for. -/
  | lock (t : ThreadId)
  /-- The owner of the lock goes on. -/
  | advance (t : ThreadId)
  /-- `condition-variable-wait!` returns. -/
  | wake (t : ThreadId)

namespace Barrier

/-- `make-thread-barrier`. -/
def make (count : Nat) : Barrier := ⟨count, 0, none, fun _ => .outside, [], []⟩

def setActivity (b : Barrier) (t : ThreadId) (a : Activity) : Barrier :=
  { b with activity := update b.activity t a }

/-- The body of `thread-barrier-wait` up to its value or to the loop. -/
def enter (count : Nat) (b : Barrier) (t : ThreadId) : Barrier :=
  let call := b.calls.length
  let b' := { b with calls := b.calls ++ [b.generation] }
  if ¬0 < b.current ∨ ¬b.current ≤ count then b.setActivity t .failed
  else
    let next := b.current - 1
    if next = 0 then
      { b'.setActivity t (.leaving call b.generation true) with
        current := count
        generation := 1 + b.generation }
    else { b'.setActivity t (.testing call b.generation) with current := next }

/-- One turn of the `do` loop. -/
def test (b : Barrier) (t : ThreadId) (call generation : Nat) : Barrier :=
  if generation < b.generation then b.setActivity t (.leaving call generation false)
  else { b.setActivity t (.waiting call generation) with lock := none }

def step (count : Nat) (b : Barrier) : Action → Option Barrier
  | .call t =>
    match b.activity t with
    | .outside => some (b.setActivity t .locking)
    | _ => none
  | .lock t =>
    match b.activity t, b.lock with
    | .locking, none => some { b.setActivity t .entered with lock := some t }
    | _, _ => none
  | .advance t =>
    match b.activity t with
    | .entered => some (b.enter count t)
    | .testing call generation => some (b.test t call generation)
    | .leaving call generation value =>
      some { b.setActivity t .outside with
        lock := none
        returns := b.returns ++ [⟨call, generation, value⟩] }
    | _ => none
  | .wake t =>
    match b.activity t, b.lock with
    | .waiting call generation, none =>
      some { b.setActivity t (.testing call generation) with lock := some t }
    | _, _ => none

/-! ## The invariant -/

end Barrier

def Activity.call? : Activity → Option Nat
  | .testing call _ | .waiting call _ | .leaving call _ _ => some call
  | .outside | .locking | .entered | .failed => none

/-- A call with its value, after `total` calls and with the barrier in
`generation`: its generation is over, and its value is `#t` if it was the last
call of it. -/
structure Finished (count total generation : Nat) (r : Return) : Prop where
  call_lt : r.call < total
  generation_eq : r.generation = r.call / count
  value_iff : r.value = true ↔ r.call % count = count - 1
  past : r.generation < generation

def Activity.Fits (count total generation : Nat) : Activity → Prop
  | .outside | .locking | .entered => True
  | .testing call g | .waiting call g => call < total ∧ g = call / count ∧ call % count ≠ count - 1
  | .leaving call g value => Finished count total generation ⟨call, g, value⟩
  | .failed => False

theorem Finished.mono {count total total' generation generation' r}
    (h : Finished count total generation r) (ht : total ≤ total') (hg : generation ≤ generation') :
    Finished count total' generation' r :=
  ⟨Nat.lt_of_lt_of_le h.call_lt ht, h.generation_eq, h.value_iff, Nat.lt_of_lt_of_le h.past hg⟩

theorem Activity.Fits.mono {a : Activity} {count total total' generation generation'}
    (h : a.Fits count total generation) (ht : total ≤ total') (hg : generation ≤ generation') :
    a.Fits count total' generation' := by
  cases a with
  | testing c g => exact ⟨Nat.lt_of_lt_of_le h.1 ht, h.2⟩
  | waiting c g => exact ⟨Nat.lt_of_lt_of_le h.1 ht, h.2⟩
  | leaving c g v => exact Finished.mono h ht hg
  | outside => trivial
  | locking => trivial
  | entered => trivial
  | failed => exact h

namespace Barrier

structure Inv (count : Nat) (b : Barrier) : Prop where
  current_pos : 0 < b.current
  current_le : b.current ≤ count
  /-- `current` calls are missing in the generation. -/
  total : b.calls.length + b.current = count * (b.generation + 1)
  calls : b.calls = (List.range b.calls.length).map (· / count)
  lock : ∀ t, (b.activity t).Holds ↔ b.lock = some t
  fits : ∀ t, (b.activity t).Fits count b.calls.length b.generation
  returns : ∀ r ∈ b.returns, Finished count b.calls.length b.generation r
  once : (b.returns.map (·.call)).Nodup
  distinct : ∀ t u c, (b.activity t).call? = some c → (b.activity u).call? = some c → t = u
  fresh : ∀ t c, (b.activity t).call? = some c → c ∉ b.returns.map (·.call)
  pending : ∀ c < b.calls.length,
    c ∈ b.returns.map (·.call) ∨ ∃ t, (b.activity t).call? = some c

variable {count : Nat} {b b' : Barrier} {t : ThreadId} {a : Activity}

theorem make_inv (hcount : 0 < count) : (make count).Inv count where
  current_pos := hcount
  current_le := Nat.le_refl count
  total := by simp [make]
  calls := rfl
  lock := by simp [make, Activity.Holds]
  fits _ := trivial
  returns := by simp [make]
  once := List.nodup_nil
  distinct := by simp [make, Activity.call?]
  fresh := by simp [make, Activity.call?]
  pending := by simp [make]

section
variable (h : b.Inv count)
include h

theorem Inv.update_holds {l} (hl : a.Holds ↔ l = some t)
    (hothers : ∀ u, u ≠ t → (l = some u ↔ b.lock = some u)) (u : ThreadId) :
    (update b.activity t a u).Holds ↔ l = some u := by
  by_cases hut : u = t
  · subst hut
    rwa [update_self]
  · rw [update_of_ne hut, h.lock u, hothers u hut]

theorem Inv.move {l} (hcall : a.call? = (b.activity t).call?)
    (hfits : a.Fits count b.calls.length b.generation) (hl : a.Holds ↔ l = some t)
    (hothers : ∀ u, u ≠ t → (l = some u ↔ b.lock = some u)) :
    Inv count { b.setActivity t a with lock := l } := by
  have hsame (u : ThreadId) : (update b.activity t a u).call? = (b.activity u).call? := by
    by_cases hut : u = t
    · subst hut
      rw [update_self, hcall]
    · rw [update_of_ne hut]
  refine ⟨h.current_pos, h.current_le, h.total, h.calls, h.update_holds hl hothers, fun u => ?_,
    h.returns, h.once, fun u v c hu hv => ?_, fun u c hu => ?_, fun c hc => ?_⟩
  · by_cases hut : u = t
    · subst hut
      simpa [setActivity] using hfits
    · simpa [setActivity, hut] using h.fits u
  · exact h.distinct u v c ((hsame u).symm.trans hu) ((hsame v).symm.trans hv)
  · exact h.fresh u c ((hsame u).symm.trans hu)
  · rcases h.pending c hc with hr | ⟨u, hu⟩
    · exact .inl hr
    · exact .inr ⟨u, (hsame u).trans hu⟩

theorem Inv.next_call : b.calls.length / count = b.generation ∧
    (b.calls.length % count = count - 1 ↔ b.current = 1) := by
  have htotal := h.total
  have hpos := h.current_pos
  have hle := h.current_le
  have heq : b.calls.length = (count - b.current) + count * b.generation := by
    rw [Nat.mul_succ] at htotal
    omega
  have hlt : count - b.current < count := by omega
  rw [heq, Nat.add_mul_div_left _ _ (by omega), Nat.add_mul_mod_self_left,
    Nat.div_eq_of_lt hlt, Nat.mod_eq_of_lt hlt]
  omega

theorem Inv.call_lt {c} (hc : (b.activity t).call? = some c) : c < b.calls.length := by
  have hfits := h.fits t
  generalize b.activity t = a at hc hfits
  cases a with
  | testing c' g =>
    cases hc
    exact hfits.1
  | waiting c' g =>
    cases hc
    exact hfits.1
  | leaving c' g v =>
    cases hc
    exact Finished.call_lt hfits
  | outside => cases hc
  | locking => cases hc
  | entered => cases hc
  | failed => cases hc

theorem Inv.admit {current generation} (hnone : (b.activity t).call? = none)
    (hlock : b.lock = some t) (hcall : a.call? = some b.calls.length) (hholds : a.Holds)
    (hfits : a.Fits count (b.calls.length + 1) generation) (hgen : b.generation ≤ generation)
    (hpos : 0 < current) (hle : current ≤ count)
    (htotal : b.calls.length + 1 + current = count * (generation + 1)) :
    Inv count { b.setActivity t a with
      calls := b.calls ++ [b.generation], current := current, generation := generation } := by
  have hold {u : ThreadId} (hut : u ≠ t) : update b.activity t a u = b.activity u :=
    update_of_ne hut _ _
  have hcalls {u : ThreadId} {c : Nat} (hu : (update b.activity t a u).call? = some c) :
      u = t ∧ c = b.calls.length ∨ u ≠ t ∧ (b.activity u).call? = some c := by
    by_cases hut : u = t
    · subst hut
      rw [update_self, hcall] at hu
      exact .inl ⟨rfl, (Option.some.inj hu).symm⟩
    · rw [hold hut] at hu
      exact .inr ⟨hut, hu⟩
  have hlen : (b.calls ++ [b.generation]).length = b.calls.length + 1 := by simp
  refine ⟨hpos, hle, by rw [hlen]; exact htotal, ?_, ?_, fun u => ?_, fun r hr => ?_, h.once,
    fun u v c hu hv => ?_, fun u c hu => ?_, fun c hc => ?_⟩
  · change b.calls ++ [b.generation] = _
    rw [hlen, List.range_succ, List.map_append, ← h.calls, List.map_singleton, h.next_call.1]
  · exact h.update_holds (iff_of_true hholds hlock) fun u _ => Iff.rfl
  · change (update b.activity t a u).Fits count (b.calls ++ [b.generation]).length _
    rw [hlen]
    by_cases hut : u = t
    · subst hut
      rwa [update_self]
    · rw [hold hut]
      exact (h.fits u).mono (Nat.le_succ _) hgen
  · change Finished count (b.calls ++ [b.generation]).length generation r
    rw [hlen]
    exact (h.returns r hr).mono (Nat.le_succ _) hgen
  · -- the new number is larger than all others
    rcases hcalls hu with ⟨hut, huc⟩ | ⟨-, hu'⟩ <;> rcases hcalls hv with ⟨hvt, hvc⟩ | ⟨-, hv'⟩
    · rw [hut, hvt]
    · exact absurd (huc ▸ h.call_lt hv') (Nat.lt_irrefl _)
    · exact absurd (hvc ▸ h.call_lt hu') (Nat.lt_irrefl _)
    · exact h.distinct u v c hu' hv'
  · rcases hcalls hu with ⟨-, rfl⟩ | ⟨-, hu⟩
    · intro hmem
      obtain ⟨r, hr, he⟩ := List.mem_map.mp hmem
      exact absurd (he ▸ (h.returns r hr).call_lt) (Nat.lt_irrefl _)
    · exact h.fresh u c hu
  · change c < (b.calls ++ [b.generation]).length at hc
    rw [hlen] at hc
    by_cases hlast : c = b.calls.length
    · exact .inr ⟨t, by rw [hlast, ← hcall]; simp [setActivity]⟩
    · rcases h.pending c (by omega) with hr | ⟨u, hu⟩
      · exact .inl hr
      · refine .inr ⟨u, ?_⟩
        have hut : u ≠ t := by
          rintro rfl
          rw [hnone] at hu
          cases hu
        change (update b.activity t a u).call? = some c
        rwa [hold hut]

theorem Inv.enter (ht : b.activity t = .entered) : (b.enter count t).Inv count := by
  have hlock : b.lock = some t := (h.lock t).mp (by rw [ht]; trivial)
  have hnone : (b.activity t).call? = none := by rw [ht]; rfl
  obtain ⟨hgen, hlast⟩ := h.next_call
  have hpos := h.current_pos
  have hle := h.current_le
  have htotal := h.total
  rw [Barrier.enter, if_neg (by omega)]
  dsimp only
  split
  case isTrue hnext =>
    have hone : b.current = 1 := by omega
    refine h.admit hnone hlock rfl trivial ⟨Nat.lt_succ_self _, hgen.symm, ?_, ?_⟩ ?_ (by omega)
      (Nat.le_refl count) ?_
    · exact iff_of_true rfl (hlast.mpr hone)
    · show b.generation < 1 + b.generation
      omega
    · omega
    · rw [Nat.add_comm 1, Nat.mul_succ, ← htotal, hone]
  case isFalse hnext =>
    change Inv count { b.setActivity t (.testing b.calls.length b.generation) with
      calls := b.calls ++ [b.generation], current := b.current - 1, generation := b.generation }
    refine h.admit hnone hlock rfl trivial ⟨Nat.lt_succ_self _, hgen.symm, ?_⟩ (Nat.le_refl _)
      (by omega) (by omega) (by omega)
    rw [Ne, hlast]
    omega

theorem Inv.leave {c g v} (ht : b.activity t = .leaving c g v) :
    Inv count { b.setActivity t .outside with
      lock := none, returns := b.returns ++ [⟨c, g, v⟩] } := by
  have hlock : b.lock = some t := (h.lock t).mp (by rw [ht]; trivial)
  have hc : (b.activity t).call? = some c := by rw [ht]; rfl
  have hfits : Finished count b.calls.length b.generation ⟨c, g, v⟩ := by
    have := h.fits t
    rwa [ht] at this
  have hcalls {u : ThreadId} {d : Nat}
      (hu : (update b.activity t .outside u).call? = some d) :
      u ≠ t ∧ (b.activity u).call? = some d := by
    by_cases hut : u = t
    · subst hut
      rw [update_self] at hu
      cases hu
    · rw [update_of_ne hut] at hu
      exact ⟨hut, hu⟩
  refine ⟨h.current_pos, h.current_le, h.total, h.calls, ?_, fun u => ?_, fun r hr => ?_, ?_,
    fun u w d hu hw => ?_, fun u d hu => ?_, fun d hd => ?_⟩
  · refine h.update_holds (by simp [Activity.Holds]) fun u hut => ?_
    rw [hlock]
    exact iff_of_false nofun fun he => hut (Option.some.inj he).symm
  · by_cases hut : u = t
    · subst hut
      simp [setActivity, Activity.Fits]
    · simpa [setActivity, hut] using h.fits u
  · rcases List.mem_append.mp hr with hr | hr
    · exact h.returns r hr
    · rw [List.mem_singleton.mp hr]
      exact hfits
  · rw [List.map_append, List.map_singleton]
    exact h.once.append (List.nodup_singleton c) (List.disjoint_singleton.mpr (h.fresh t c hc))
  · exact h.distinct u w d (hcalls hu).2 (hcalls hw).2
  · obtain ⟨hut, hu⟩ := hcalls hu
    rw [List.map_append, List.map_singleton, List.mem_append, List.mem_singleton]
    rintro (hmem | hdc)
    · exact h.fresh u d hu hmem
    · exact hut (h.distinct u t d hu (hdc ▸ hc))
  · rw [List.map_append, List.map_singleton, List.mem_append, List.mem_singleton]
    rcases h.pending d hd with hr | ⟨u, hu⟩
    · exact .inl (.inl hr)
    · by_cases hut : u = t
      · subst hut
        rw [hc] at hu
        exact .inl (.inr (Option.some.inj hu).symm)
      · refine .inr ⟨u, ?_⟩
        change (update b.activity t .outside u).call? = some d
        rwa [update_of_ne hut]

theorem Inv.test {c g} (ht : b.activity t = .testing c g) : (b.test t c g).Inv count := by
  have hlock : b.lock = some t := (h.lock t).mp (by rw [ht]; trivial)
  have hcall : (b.activity t).call? = some c := by rw [ht]; rfl
  obtain ⟨hc, hg, hlast⟩ : c < b.calls.length ∧ g = c / count ∧ c % count ≠ count - 1 := by
    have := h.fits t
    rwa [ht] at this
  unfold Barrier.test
  split
  case isTrue hover =>
    exact h.move hcall.symm ⟨hc, hg, by simpa using hlast, hover⟩ (iff_of_true trivial hlock)
      fun u _ => Iff.rfl
  case isFalse =>
    refine h.move hcall.symm ⟨hc, hg, hlast⟩ (iff_of_false id nofun) fun u hut => ?_
    rw [hlock]
    exact iff_of_false nofun fun he => hut (Option.some.inj he).symm

theorem Inv.acquire (hcall : a.call? = (b.activity t).call?)
    (hfits : a.Fits count b.calls.length b.generation) (hholds : a.Holds) (hfree : b.lock = none) :
    Inv count { b.setActivity t a with lock := some t } := by
  refine h.move hcall hfits (iff_of_true hholds rfl) fun u hut => ?_
  rw [hfree]
  exact iff_of_false (fun he => hut (Option.some.inj he).symm) nofun

theorem step_inv {action} (hs : b.step count action = some b') : b'.Inv count := by
  cases action with simp only [step] at hs
  | call t =>
    split at hs
    case h_1 ht =>
      cases hs
      refine h.move (by rw [ht]; rfl) trivial ?_ fun u _ => Iff.rfl
      rw [← h.lock t, ht]
      exact Iff.rfl
    case h_2 => cases hs
  | lock t =>
    split at hs
    case h_1 ht hfree =>
      cases hs
      exact h.acquire (by rw [ht]; rfl) trivial trivial hfree
    case h_2 => cases hs
  | advance t =>
    split at hs
    case h_1 ht =>
      cases hs
      exact h.enter ht
    case h_2 c g ht =>
      cases hs
      exact h.test ht
    case h_3 c g v ht =>
      cases hs
      exact h.leave ht
    case h_4 => cases hs
  | wake t =>
    split at hs
    case h_1 c g ht hfree =>
      cases hs
      have hfits := h.fits t
      rw [ht] at hfits
      exact h.acquire (by rw [ht]; rfl) hfits trivial hfree
    case h_2 => cases hs

end

/-! ## What callers see -/

theorem count_before {g generation} (h : generation ≤ g) :
    ((List.range (count * generation)).map (· / count)).count g = 0 := by
  refine List.count_eq_zero.mpr fun hmem => ?_
  obtain ⟨c, hc, he⟩ := List.mem_map.mp hmem
  have : c / count < generation := Nat.div_lt_of_lt_mul (List.mem_range.mp hc)
  omega

theorem count_generation {total g} (hcount : 0 < count) (h : count * (g + 1) ≤ total) :
    ((List.range total).map (· / count)).count g = count := by
  obtain ⟨rest, rfl⟩ := Nat.exists_eq_add_of_le h
  rw [Nat.mul_succ, List.range_add, List.range_add, List.map_append, List.map_append,
    List.count_append, List.count_append]
  have hgen : (((List.range count).map (count * g + ·)).map (· / count)).count g = count := by
    have : ((List.range count).map (count * g + ·)).map (· / count) = List.replicate count g := by
      refine List.eq_replicate_iff.mpr ⟨by simp, fun x hx => ?_⟩
      obtain ⟨d, hd, rfl⟩ := List.mem_map.mp hx
      obtain ⟨c, hc, rfl⟩ := List.mem_map.mp hd
      rw [Nat.mul_add_div hcount, Nat.div_eq_of_lt (List.mem_range.mp hc), Nat.add_zero]
    rw [this, List.count_replicate_self]
  have hafter :
      (((List.range rest).map (count * g + count + ·)).map (· / count)).count g = 0 := by
    refine List.count_eq_zero.mpr fun hmem => ?_
    obtain ⟨d, hd, he⟩ := List.mem_map.mp hmem
    obtain ⟨c, -, rfl⟩ := List.mem_map.mp hd
    rw [← Nat.mul_succ, Nat.mul_add_div hcount] at he
    have := Nat.le_add_right (g + 1) (c / count)
    omega
  rw [count_before (Nat.le_refl g), hgen, hafter]
  omega

/-- The number of calls of a generation that have returned a value. -/
def tally (b : Barrier) (g : Nat) (v : Bool) : Nat :=
  b.returns.countP fun r => r.generation = g ∧ r.value = v

theorem Inv.tally_le (h : b.Inv count) (g : Nat) (v : Bool) (numbers : List Nat)
    (hsub : ∀ r ∈ b.returns, r.generation = g → r.value = v → r.call ∈ numbers) :
    b.tally g v ≤ numbers.length := by
  have hnodup : ((b.returns.filter fun r => r.generation = g ∧ r.value = v).map (·.call)).Nodup :=
    h.once.sublist (List.filter_sublist.map _)
  have hsubset : ((b.returns.filter fun r => r.generation = g ∧ r.value = v).map (·.call)) ⊆
      numbers := by
    intro c hc
    obtain ⟨r, hr, rfl⟩ := List.mem_map.mp hc
    obtain ⟨hr, hgv⟩ := List.mem_filter.mp hr
    obtain ⟨hg, hv⟩ := of_decide_eq_true hgv
    exact hsub r hr hg hv
  have hlen := (List.subperm_of_subset hnodup hsubset).length_le
  rwa [List.length_map, ← List.countP_eq_length_filter] at hlen

theorem Inv.tally_true (h : b.Inv count) (g : Nat) : b.tally g true ≤ 1 := by
  refine h.tally_le g true [count * g + (count - 1)] fun r hr hg hv => ?_
  obtain ⟨-, hgen, hlast, -⟩ := h.returns r hr
  rw [List.mem_singleton, ← hg, hgen, ← hlast.mp hv]
  exact (Nat.div_add_mod r.call count).symm

theorem Inv.tally_false (h : b.Inv count) (g : Nat) : b.tally g false ≤ count - 1 := by
  have hcount : 0 < count := Nat.lt_of_lt_of_le h.current_pos h.current_le
  have hle := h.tally_le g false ((List.range (count - 1)).map (count * g + ·))
    fun r hr hg hv => by
      obtain ⟨-, hgen, hlast, -⟩ := h.returns r hr
      have hne : r.call % count ≠ count - 1 := fun he => by
        rw [hlast.mpr he] at hv
        cases hv
      have hlt := Nat.mod_lt r.call hcount
      refine List.mem_map.mpr ⟨r.call % count, List.mem_range.mpr (by omega), ?_⟩
      rw [← hg, hgen]
      exact Nat.div_add_mod r.call count
  simpa using hle

theorem Inv.count_calls_iff (h : b.Inv count) (g : Nat) :
    b.calls.count g = count ↔ g < b.generation := by
  have hcount : 0 < count := Nat.lt_of_lt_of_le h.current_pos h.current_le
  have htotal := h.total
  have hpos := h.current_pos
  constructor
  · intro hall
    by_contra hover
    -- only the calls of the generation that is going on can be calls of `g`
    have hsplit : b.calls.length = count * b.generation + (count - b.current) := by
      have := h.current_le
      rw [Nat.mul_succ] at htotal
      omega
    have hle := List.count_le_length (a := g)
      (l := (((List.range (count - b.current)).map (count * b.generation + ·)).map (· / count)))
    rw [h.calls, hsplit, List.range_add, List.map_append, List.count_append,
      count_before (Nat.le_of_not_lt hover)] at hall
    rw [List.length_map, List.length_map, List.length_range] at hle
    omega
  · intro hover
    rw [h.calls]
    refine count_generation hcount ?_
    have : count * (g + 1) ≤ count * b.generation := Nat.mul_le_mul_left count hover
    have := h.current_le
    rw [Nat.mul_succ] at htotal
    omega

/-- What the callers of a barrier for `count` threads can rely on. -/
structure Synchronized (count : Nat) (b : Barrier) : Prop where
  free : b.lock = none → 0 < b.current ∧ b.current ≤ count
  /-- Each generation has `count` calls, in the order of the calls. -/
  generations : ∀ c < b.calls.length, b.calls[c]? = some (c / count)
  /-- No call of a generation returns before all of its calls have been made. -/
  returned : ∀ r ∈ b.returns, b.calls[r.call]? = some r.generation ∧
    b.calls.count r.generation = count
  once : (b.returns.map (·.call)).Nodup
  /-- One call of a generation returns `#t`, the others `#f`. -/
  values : ∀ g, b.tally g true ≤ 1 ∧ b.tally g false ≤ count - 1 ∧
    (b.tally g true + b.tally g false = count → b.tally g true = 1 ∧ b.tally g false = count - 1)
  /-- A call that has not returned is inside; once its generation is complete,
  it has its value or finds it at its next turn, and the last one's is `#t`. -/
  inside : ∀ c < b.calls.length, c ∈ b.returns.map (·.call) ∨ ∃ t,
    b.activity t = .leaving c (c / count) (decide (c % count = count - 1)) ∨
      (b.activity t = .testing c (c / count) ∨ b.activity t = .waiting c (c / count)) ∧
        c % count ≠ count - 1 ∧ (b.calls.count (c / count) = count → c / count < b.generation)
  asserted : ∀ t, b.activity t ≠ .failed

theorem Inv.synchronized (h : b.Inv count) : Synchronized count b := by
  have hcalls {c : Nat} (hc : c < b.calls.length) : b.calls[c]? = some (c / count) := by
    rw [h.calls, List.getElem?_map, List.getElem?_range hc]
    rfl
  refine ⟨fun _ => ⟨h.current_pos, h.current_le⟩, fun c hc => hcalls hc, fun r hr => ?_, h.once,
    fun g => ?_, fun c hc => ?_, fun t ht => ?_⟩
  · obtain ⟨hlt, hgen, -, hover⟩ := h.returns r hr
    exact ⟨hgen ▸ hcalls hlt, (h.count_calls_iff r.generation).mpr hover⟩
  · have h1 := h.tally_true g
    have h2 := h.tally_false g
    have h3 := Nat.lt_of_lt_of_le h.current_pos h.current_le
    exact ⟨h1, h2, fun hall => by omega⟩
  · rcases h.pending c hc with hr | ⟨t, ht⟩
    · exact .inl hr
    · refine .inr ⟨t, ?_⟩
      have hover := (h.count_calls_iff (c / count)).mp
      have hfits := h.fits t
      generalize b.activity t = a at ht hfits
      cases a with
      | testing c' g =>
        cases ht
        obtain ⟨-, rfl, hlast⟩ := hfits
        exact .inr ⟨.inl rfl, hlast, hover⟩
      | waiting c' g =>
        cases ht
        obtain ⟨-, rfl, hlast⟩ := hfits
        exact .inr ⟨.inr rfl, hlast, hover⟩
      | leaving c' g v =>
        cases ht
        obtain ⟨-, hgen, hvalue, -⟩ := hfits
        dsimp only at hgen hvalue
        left
        rw [hgen, Bool.eq_iff_iff.mpr (hvalue.trans decide_eq_true_iff.symm)]
      | outside => cases ht
      | locking => cases ht
      | entered => cases ht
      | failed => cases ht
  · have hfits := h.fits t
    rw [ht] at hfits
    exact hfits

/-- **A thread barrier lets its callers through by generations.** In every state
that any interleaving of calls reaches, with any wake-ups. -/
theorem thread_barrier_synchronizes {count : Nat} (hcount : 0 < count) (actions : List Action)
    {b : Barrier} (hr : run (step count) (make count) actions = some b) : Synchronized count b :=
  (run_invariant' (I := Inv count) (fun hi hs => step_inv hi hs) (make_inv hcount) hr).synchronized

/-- Two threads, and one of them calls again before the other has woken up. -/
theorem thread_barrier_synchronizes_reentry :
    ∃ b, run (step 2) (make 2) [.call 0, .lock 0, .advance 0, .advance 0, .call 1, .lock 1,
        .advance 1, .advance 1, .call 1, .lock 1, .advance 1, .advance 1, .wake 0, .advance 0,
        .advance 0, .wake 1] = some b ∧
      b.returns = [⟨1, 0, true⟩, ⟨0, 0, false⟩] ∧ b.activity 1 = .testing 2 1 ∧
      Synchronized 2 b := by
  refine ⟨_, rfl, rfl, rfl, ?_⟩
  exact thread_barrier_synchronizes (by decide) [.call 0, .lock 0, .advance 0, .advance 0, .call 1,
    .lock 1, .advance 1, .advance 1, .call 1, .lock 1, .advance 1, .advance 1, .wake 0, .advance 0,
    .advance 0, .wake 1] rfl

end Barrier

end MitScheme.Runtime.ThreadBarrier
