import Mathlib.Algebra.Order.BigOperators.Group.Finset
import MitScheme.Microcode.GcInvariant

/-! # The garbage collector: the scan

The handlers and the scan loops, given rules for what copies one object. -/

namespace MitScheme.Microcode.GcLoop
open Function

variable {c : Config}

/-! ## The work that is left -/

/-- The space that the object at `b` can still take in tospace. -/
def room (h : Heap c) (memory : Nat → Object) (b : Nat) : Nat :=
  if (memory b).isBrokenHeart then 0 else (h.size b).elim 0 (· + c.floatingAlignment)

/-- The space that the objects that are not copied yet can take in tospace. -/
def pending (h : Heap c) (memory : Nat → Object) : Nat :=
  ∑ b ∈ Finset.range c.fromspaceEnd, room h memory b

/-- What every part of a collection does to the state. -/
structure Grows (h : Heap c) (s s' : State) : Prop where
  keeps : ∀ d m, h.size d = some m → Forwarded s.memory d → s'.memory d = s.memory d
  potential : s'.tospaceNext + pending h s'.memory ≤ s.tospaceNext + pending h s.memory
  next : s.tospaceNext ≤ s'.tospaceNext

/-- What a handler at `scan` does to the state, before it stores the new word. -/
structure Step (h : Heap c) (scan : Nat) (s s' : State) : Prop extends Grows h s s' where
  outside : ∀ a, c.inFromspace a = false → s'.memory a = s.memory a
  current : scan < s.tospaceNext → s'.tospace scan = s.tospace scan

variable {h : Heap c} {L : Nat → Prop} {limit scan : Nat} {J : Nat → State → Prop}
  {s s' s'' : State} {b n : Nat} {w : Object}

theorem room_forwarded {memory : Nat → Object} (hf : Forwarded memory b) : room h memory b = 0 :=
  if_pos hf

theorem room_unforwarded {memory : Nat → Object} (hb : h.size b = some n)
    (hf : ¬Forwarded memory b) : room h memory b = n + c.floatingAlignment := by
  refine (if_neg hf).trans ?_
  rw [hb]
  rfl

theorem Grows.refl : Grows h s s := ⟨fun _ _ _ _ => rfl, Nat.le_refl _, Nat.le_refl _⟩

theorem Grows.forwarded (hs : Grows h s s') {d m} (hd : h.size d = some m)
    (hf : Forwarded s.memory d) : Forwarded s'.memory d :=
  hf.congr (hs.keeps d m hd hf)

theorem Grows.trans (hs : Grows h s s') (hs' : Grows h s' s'') : Grows h s s'' where
  keeps d m hd hf := (hs'.keeps d m hd (hs.forwarded hd hf)).trans (hs.keeps d m hd hf)
  potential := hs'.potential.trans hs.potential
  next := hs.next.trans hs'.next

theorem Step.refl : Step h scan s s := ⟨.refl, fun _ _ => rfl, fun _ => rfl⟩

theorem Step.trans (hs : Step h scan s s') (hs' : Step h scan s' s'') : Step h scan s s'' where
  toGrows := hs.toGrows.trans hs'.toGrows
  outside a ha := (hs'.outside a ha).trans (hs.outside a ha)
  current hlt := (hs'.current (Nat.lt_of_lt_of_le hlt hs.next)).trans (hs.current hlt)

section
variable {memory memory' : Nat → Object}
  (hkeeps : ∀ d m, h.size d = some m → Forwarded memory d → memory' d = memory d)

include hkeeps

theorem room_le (b) : room h memory' b ≤ room h memory b := by
  cases hb : h.size b with
  | none =>
    rw [room, hb, Option.elim_none, ite_self]
    exact Nat.zero_le _
  | some n =>
    by_cases hf' : Forwarded memory' b
    · rw [room_forwarded hf']
      exact Nat.zero_le _
    · have hf : ¬Forwarded memory b := fun hf => hf' (hf.congr (hkeeps b n hb hf))
      rw [room_unforwarded hb hf', room_unforwarded hb hf]

theorem pending_lt (hb : h.size b = some n) (hf : ¬Forwarded memory b)
    (hf' : Forwarded memory' b) :
    pending h memory' + (n + c.floatingAlignment) ≤ pending h memory := by
  obtain ⟨hpos, -, hend⟩ := h.inside b n hb
  have hmem : b ∈ Finset.range c.fromspaceEnd := Finset.mem_range.mpr (by omega)
  rw [pending, pending, ← Finset.add_sum_erase _ _ hmem, ← Finset.add_sum_erase _ _ hmem]
  have hroom := room_unforwarded hb hf
  have hroom' : room h memory' b = 0 := room_forwarded hf'
  have hrest := Finset.sum_le_sum (s := (Finset.range c.fromspaceEnd).erase b)
    fun x _ => room_le hkeeps x
  omega

end

theorem Grows.pending_le (hs : Grows h s s') : pending h s'.memory ≤ pending h s.memory :=
  Finset.sum_le_sum fun b _ => room_le hs.keeps b

/-! ## Copying words -/

def appendWords (word : Nat → Object) (n : Nat) (s : State) : State :=
  { s with
    tospace := fun i =>
      if s.tospaceNext ≤ i ∧ i < s.tospaceNext + n then word (i - s.tospaceNext) else s.tospace i
    tospaceNext := s.tospaceNext + n
    newspaceNext := s.newspaceNext + n }

theorem addToTospace_append (word n s) :
    appendWords (fun j => word (j + 1)) n (addToTospace (word 0) s) =
      appendWords word (n + 1) s := by
  have htospace : ∀ i, (appendWords (fun j => word (j + 1)) n (addToTospace (word 0) s)).tospace i =
      (appendWords word (n + 1) s).tospace i := by
    intro i
    simp only [appendWords, addToTospace, update_apply]
    grind
  have hnext : s.tospaceNext + 1 + n = s.tospaceNext + (n + 1) := by omega
  have hnew : s.newspaceNext + 1 + n = s.newspaceNext + (n + 1) := by omega
  have := funext htospace
  simp only [appendWords, addToTospace] at this ⊢
  rw [this, hnext, hnew]

theorem copyWords_eq : ∀ (n a : Nat) (s : State),
    copyWords n a s = appendWords (fun j => s.memory (a + j)) n s := by
  intro n
  induction n with
  | zero =>
    intro a s
    have htospace : (appendWords (fun j => s.memory (a + j)) 0 s).tospace = s.tospace :=
      funext fun i => if_neg (by omega)
    have heq : appendWords (fun j => s.memory (a + j)) 0 s =
        { s with tospace := (appendWords (fun j => s.memory (a + j)) 0 s).tospace } := rfl
    rw [copyWords, heq, htospace]
  | succ n ih =>
    intro a s
    rw [copyWords, ih, ← addToTospace_append]
    congr 1
    funext j
    rw [Nat.add_assoc, Nat.add_comm 1 j]
    rfl

theorem alignTospace_eq (k s) :
    ∃ m ≤ k, alignTospace c k s = (addToTospace ⟨.manifestNmVector, 0⟩)^[m] s := by
  induction k generalizing s with
  | zero => exact ⟨0, Nat.le_refl _, rfl⟩
  | succ k ih =>
    rw [alignTospace]
    split
    · exact ⟨0, Nat.zero_le _, rfl⟩
    · obtain ⟨m, hm, heq⟩ := ih (addToTospace ⟨.manifestNmVector, 0⟩ s)
      exact ⟨m + 1, Nat.succ_le_succ hm, heq⟩

/-- The state after the padding of `gc_transport_words`. -/
def padded (c : Config) (align : Bool) (s : State) : State :=
  if align then alignTospace c c.floatingAlignment s else s

variable (align : Bool)

theorem padded_eq (s) :
    ∃ m ≤ c.floatingAlignment, padded c align s = (addToTospace ⟨.manifestNmVector, 0⟩)^[m] s := by
  cases align with
  | false => exact ⟨0, Nat.zero_le _, rfl⟩
  | true => exact alignTospace_eq c.floatingAlignment s

structure Padded (c : Config) (s s' : State) : Prop where
  memory : s'.memory = s.memory
  tospaceNext : s.tospaceNext ≤ s'.tospaceNext
  room : s'.tospaceNext ≤ s.tospaceNext + c.floatingAlignment
  old : ∀ i < s.tospaceNext, s'.tospace i = s.tospace i

theorem padded_pads (s) : Padded c s (padded c align s) := by
  obtain ⟨m, hm, heq⟩ := padded_eq (c := c) align s
  have hpads : ∀ m, ((addToTospace ⟨.manifestNmVector, 0⟩)^[m] s).memory = s.memory ∧
      ((addToTospace ⟨.manifestNmVector, 0⟩)^[m] s).tospaceNext = s.tospaceNext + m ∧
      ∀ i < s.tospaceNext,
        ((addToTospace ⟨.manifestNmVector, 0⟩)^[m] s).tospace i = s.tospace i := by
    intro m
    induction m with
    | zero => exact ⟨rfl, rfl, fun _ _ => rfl⟩
    | succ m ih =>
      rw [iterate_succ_apply']
      obtain ⟨hmem, hnext, hold⟩ := ih
      refine ⟨hmem, congrArg (· + 1) hnext, fun i hi => ?_⟩
      refine (update_of_ne ?_ _ _).trans (hold i hi)
      omega
  obtain ⟨hmem, hnext, hold⟩ := hpads m
  rw [heq]
  exact ⟨hmem, by omega, by omega, hold⟩

theorem gcTransportWords_fst (b n align s) :
    (gcTransportWords c b n align s).1 = (padded c align s).newspaceNext := rfl

theorem gcTransportWords_snd (b n align s) :
    (gcTransportWords c b n align s).2 =
      { appendWords (fun j => (padded c align s).memory (b + j)) n (padded c align s) with
        memory := update (padded c align s).memory b
          (makeBrokenHeart (padded c align s).newspaceNext) } := by
  have heq : (gcTransportWords c b n align s).2 =
      { copyWords n b (padded c align s) with
        memory := update (copyWords n b (padded c align s)).memory b
          (makeBrokenHeart (padded c align s).newspaceNext) } := rfl
  rw [heq, copyWords_eq]
  rfl

theorem gcTransportWords_transported (hn : 0 < n) :
    Transported (padded c align s) (gcTransportWords c b n align s).2 b n := by
  rw [gcTransportWords_snd]
  refine ⟨rfl, rfl, fun i hi => if_neg (by omega), update_self .., fun x hx => ?_⟩
  exact update_of_ne (by omega) _ _

theorem gcTransportWords_word {j} (hj : j < n) :
    (gcTransportWords c b n align s).2.tospace ((padded c align s).tospaceNext + j) =
      s.memory (b + j) := by
  rw [gcTransportWords_snd, ← (padded_pads (c := c) align s).memory]
  refine (if_pos (by omega)).trans ?_
  rw [Nat.add_sub_cancel_left]

theorem Transported.step {t} (ht : Transported t s' b n) (hp : Padded c s t)
    (hb : h.size b = some n) (hf : ¬Forwarded s.memory b) : Step h scan s s' := by
  obtain ⟨hpos, hstart, hend⟩ := h.inside b n hb
  have hkeeps : ∀ d m, h.size d = some m → Forwarded s.memory d → s'.memory d = s.memory d := by
    intro d m hd hfd
    rw [← hp.memory] at hf hfd ⊢
    exact ht.keeps hb hf hd hfd
  have hf' : Forwarded s'.memory b := by
    rw [Forwarded, ht.heart]
    rfl
  have hless := pending_lt hkeeps hb hf hf'
  have hnext := hp.tospaceNext
  have hmore := hp.room
  refine ⟨⟨hkeeps, ?_, ?_⟩, fun a ha => ?_, fun hlt => ?_⟩
  · rw [ht.tospaceNext]
    omega
  · rw [ht.tospaceNext]
    omega
  · rw [ht.memory a ?_, hp.memory]
    by_contra hin
    rw [Config.inFromspace, decide_eq_false_iff_not] at ha
    exact ha (by omega)
  · rw [ht.old scan (by omega), hp.old scan hlt]

/-! ## Rules -/

/-- Shapes that `gc_tuple` and `gc_vector` copy. -/
def Shape.Plain : Shape → Prop
  | .tuple _ | .vector => True
  | .weakPair | .ephemeron => False

/-- A pointer `w` has been followed: the object is copied. -/
structure Follows (h : Heap c) (J : Nat → State → Prop) (scan : Nat) (w : Object)
    (s s' : State) : Prop where
  kept : J scan s'
  step : Step h scan s s'
  forwarded : ∀ d, Layout.Refers c w d → Forwarded s'.memory d

/-- The rules of a collection that keeps `J` while it scans: how it copies an object, and how
the scan moves on. -/
structure Rules (h : Heap c) (L : Nat → Prop) (limit : Nat) (J : Nat → State → Prop) :
    Prop where
  inv : ∀ {scan s}, J scan s → ∃ D origin, Inv h L D s origin scan
  closed : ∀ {b n shape a d}, L b → h.size b = some n → h.shape b = some shape → shape.Plain →
    h.Field c b n a → Layout.Refers c (h.view c a) d → L d
  copy : ∀ {scan s b n shape}, J scan s → h.size b = some n → h.shape b = some shape →
    shape.Plain → ¬Forwarded s.memory b → L b →
    ∃ t, gcPrecheckFrom c limit b s = .ok (none, t) ∧ t.memory = s.memory ∧ ∀ align,
      J scan (gcTransportWords c b n align t).2 ∧
        Step h scan s (gcTransportWords c b n align t).2 ∧
        t.newspaceNext = c.newspaceStart + t.tospaceNext
  weakPair : ∀ {scan s w}, J scan s → h.shape w.datum = some .weakPair →
    ¬Forwarded s.memory w.datum → L w.datum →
    ∃ s', transportObject c limit w s (gcTransportWeakPair c) =
      .ok (w.newAddress (s'.memory w.datum).datum, s') ∧ Follows h J scan w s s'
  ephemeron : ∀ {scan s w}, J scan s → h.shape w.datum = some .ephemeron →
    ¬Forwarded s.memory w.datum → L w.datum →
    ∃ s', transportObject c limit w s (gcTransportEphemeron c) =
      .ok (w.newAddress (s'.memory w.datum).datum, s') ∧ Follows h J scan w s s'
  storeWord : ∀ {scan s}, J scan s → scan < s.tospaceNext →
    scansWord (s.tospace scan) = true →
    (∀ d, Layout.Refers c (s.tospace scan) d → Forwarded s.memory d) →
    J (scan + 1) (store .tospace scan (translate c s.memory (s.tospace scan)) s)
  skipWords : ∀ {scan s d}, J scan s → scan < s.tospaceNext →
    s.tospace scan = ⟨.manifestNmVector, d⟩ → J (scan + 1 + d) s
  storeRoot : ∀ {scan s a object}, J scan s → c.inFromspace a = false →
    J scan (store .oldspace a object s)

theorem gcPrecheckFrom_some (limit) {address}
    (hout : c.inFromspace address = false ∨ Forwarded s.memory address) :
    ∃ new, gcPrecheckFrom c limit address s = .ok (some new, s) ∧
      ∀ w : Object, (pointerShape w).isSome → w.datum = address →
        w.newAddress new = translate c s.memory w := by
  rw [gcPrecheckFrom]
  by_cases hin : c.inFromspace address = true
  · have hf : Forwarded s.memory address := hout.resolve_left (by rw [hin]; exact Bool.noConfusion)
    refine ⟨(s.memory address).datum, ?_, fun w hw hd => ?_⟩
    · rw [hin, Bool.not_true, if_neg Bool.false_ne_true]
      exact if_pos hf
    · subst hd
      exact (if_pos ⟨hw, hin⟩).symm
  · have hin' : c.inFromspace address = false := Bool.eq_false_iff.mpr hin
    refine ⟨address, ?_, fun w hw hd => ?_⟩
    · rw [hin', Bool.not_false, if_pos rfl]
    · subst hd
      exact (if_neg fun hp => hin hp.2).symm

theorem Heap.view_plain (h : Heap c) {shape j} (hb : h.size b = some n)
    (hshape : h.shape b = some shape) (hplain : shape ≠ .weakPair) (hj : j < n) :
    h.view c (b + j) = h.memory (b + j) := by
  refine if_neg fun ⟨hweak, _⟩ => ?_
  have hsize : h.size (b + j) = some 2 := by
    rw [Layout.size, hweak]
    rfl
  have heq := h.unique hb hsize (x := b + j) (by omega) (by omega)
  rw [← heq, hshape] at hweak
  exact hplain (Option.some.inj hweak)

theorem Layout.field_of_scans {h : Layout} : ∀ {n a : Nat},
    (∀ j < n, scansWord (h.view c (a + j)) = true) → ∀ j < n, h.Field c a n (a + j) := by
  intro n
  induction n with
  | zero => exact fun _ j hj => absurd hj (Nat.not_lt_zero j)
  | succ n ih =>
    intro a hscans j hj
    have hhead : scansWord (h.view c a) = true := hscans 0 (Nat.succ_pos n)
    cases j with
    | zero => exact .here hhead
    | succ j =>
      have hrest := ih (a := a + 1) (fun j hj => by
        rw [Nat.add_assoc, Nat.add_comm 1 j]
        exact hscans (j + 1) (Nat.succ_lt_succ hj)) j (Nat.lt_of_succ_lt_succ hj)
      rw [Nat.add_assoc, Nat.add_comm 1 j] at hrest
      exact .word hhead hrest

theorem Layout.size_of_tuple {h : Layout} (hshape : h.shape b = some (.tuple n)) :
    h.size b = some n := by
  rw [Layout.size, hshape]
  rfl

theorem Heap.tuple_field (h : Heap c) {j} (hshape : h.shape b = some (.tuple n)) (hj : j < n) :
    h.Field c b n (b + j) := by
  refine Layout.field_of_scans (fun j hj => ?_) j hj
  rw [h.view_plain (Layout.size_of_tuple hshape) hshape Shape.noConfusion hj]
  exact (h.tuple b n hshape j hj).scans

section
variable (R : Rules h L limit J)

include R

theorem Rules.copyTuple (hJ : J scan s) (hshape : h.shape b = some (.tuple n))
    (hf : ¬Forwarded s.memory b) (hL : L b) :
    ∃ t, gcPrecheckFrom c limit b s = .ok (none, t) ∧
      J scan (gcTransportWords c b n false t).2 ∧
      Step h scan s (gcTransportWords c b n false t).2 ∧
      (gcTransportWords c b n false t).2.memory b =
        makeBrokenHeart (gcTransportWords c b n false t).1 ∧
      ∀ j < n, readTospace c ((gcTransportWords c b n false t).1 + j)
        (gcTransportWords c b n false t).2 = h.memory (b + j) := by
  have hsize := Layout.size_of_tuple hshape
  obtain ⟨t, hpre, hmem, hcopy⟩ := R.copy hJ hsize hshape trivial hf hL
  obtain ⟨hJ', hstep, hsync⟩ := hcopy false
  obtain ⟨D, origin, inv⟩ := R.inv hJ
  refine ⟨t, hpre, hJ', hstep, ?_, fun j hj => ?_⟩
  · exact (gcTransportWords_transported false (h.inside _ _ hsize).1).heart
  · have hword := gcTransportWords_word (c := c) (b := b) (s := t) false hj
    rw [hmem, inv.unforwarded hsize hf j hj] at hword
    rw [← hword, readTospace, gcTransportWords_fst]
    congr 1
    show t.newspaceNext + j - c.newspaceStart = t.tospaceNext + j
    omega

theorem Rules.tuple_word {j} (hshape : h.shape b = some (.tuple n)) (hL : L b) (hj : j < n) :
    h.WordOk c (h.memory (b + j)) ∧
      ∀ d, Layout.Refers c (h.memory (b + j)) d → L d := by
  have hsize := Layout.size_of_tuple hshape
  refine ⟨h.tuple b n hshape j hj, fun d hr => ?_⟩
  refine R.closed hL hsize hshape trivial (h.tuple_field hshape hj) ?_
  rwa [h.view_plain hsize hshape Shape.noConfusion hj]

theorem Rules.transportCdrs : ∀ (fuel : Nat) (cdr : Object) (s : State), J scan s →
    h.WordOk c cdr → (∀ d, Layout.Refers c cdr d → L d) → pending h s.memory < fuel →
    ∃ s', GcLoop.transportCdrs c limit fuel cdr s = .ok s' ∧ J scan s' ∧ Step h scan s s' := by
  intro fuel
  induction fuel with
  | zero => exact fun _ _ _ _ _ hlt => absurd hlt (Nat.not_lt_zero _)
  | succ fuel ih =>
    intro cdr s hJ hok hL hfuel
    rw [GcLoop.transportCdrs]
    by_cases hlist : cdr.type = .list
    · have hpointer : pointerShape cdr = some (.tuple 2) := by
        rw [pointerShape, hlist]
        rfl
      rw [if_pos hlist]
      by_cases hout : c.inFromspace cdr.datum = false ∨ Forwarded s.memory cdr.datum
      · obtain ⟨new, hpre, -⟩ := gcPrecheckFrom_some limit hout
        rw [hpre]
        exact ⟨s, rfl, hJ, .refl⟩
      · -- the next pair of the list is copied behind the one before it
        obtain ⟨hin, hf⟩ := not_or.mp hout
        have hin : c.inFromspace cdr.datum = true := Bool.not_eq_false _ ▸ hin
        have hshape := hok.points _ hpointer hin
        have hLb : L cdr.datum := hL _ ⟨by rw [hpointer]; rfl, rfl, hin⟩
        obtain ⟨t, hpre, hJ', hstep, hheart, hread⟩ := R.copyTuple hJ hshape hf hLb
        obtain ⟨hok', hL'⟩ := R.tuple_word hshape hLb (j := 1) (by omega)
        have hf' : Forwarded (gcTransportWords c cdr.datum 2 false t).2.memory cdr.datum := by
          rw [Forwarded, hheart]
          rfl
        have hless := pending_lt hstep.keeps (Layout.size_of_tuple hshape) hf hf'
        obtain ⟨s', hrun, hJ'', hstep'⟩ := ih (h.memory (cdr.datum + 1)) _ hJ' hok' hL' (by omega)
        rw [hpre]
        refine ⟨s', ?_, hJ'', hstep.trans hstep'⟩
        rw [← hrun, ← hread 1 (by omega)]
        rfl
    · rw [if_neg hlist]
      exact ⟨s, rfl, hJ, .refl⟩

omit R in
theorem Step.translate_eq {new} (hs : Step h scan s s') (hok : h.WordOk c w)
    (hr : Layout.Refers c w b) (hheart : s.memory b = makeBrokenHeart new) :
    w.newAddress new = translate c s'.memory w ∧ Forwarded s'.memory b := by
  obtain ⟨m, hm⟩ := hok.size hr
  have hf : Forwarded s.memory b := by
    rw [Forwarded, hheart]
    rfl
  refine ⟨?_, hs.forwarded hm hf⟩
  obtain ⟨hp, rfl, hin⟩ := hr
  rw [translate, if_pos ⟨hp, hin⟩, hs.keeps _ m hm hf, hheart]
  rfl

omit R in
theorem Follows.of_refers (hJ : J scan s') (hs : Step h scan s s')
    (hf : Forwarded s'.memory w.datum) : Follows h J scan w s s' :=
  ⟨hJ, hs, fun _ hr => hr.2.1 ▸ hf⟩

omit R in
theorem follows_out (hJ : J scan s)
    (hout : c.inFromspace w.datum = false ∨ Forwarded s.memory w.datum) :
    Follows h J scan w s s := by
  refine ⟨hJ, .refl, fun d ⟨_, hd, hin⟩ => ?_⟩
  subst hd
  refine hout.resolve_left ?_
  rw [hin]
  exact Bool.noConfusion

omit R in
theorem follows_precheck (limit) (hJ : J scan s) (hok : h.WordOk c w) {shape}
    (hp : pointerShape w = some shape) {r : Except Stop (Object × State)}
    (hsome : ∀ new, gcPrecheckFrom c limit w.datum s = .ok (some new, s) →
      r = .ok (w.newAddress new, s))
    (hnone : Layout.Refers c w w.datum → h.shape w.datum = some shape →
      ¬Forwarded s.memory w.datum →
      ∃ s', r = .ok (translate c s'.memory w, s') ∧ Follows h J scan w s s') :
    ∃ s', r = .ok (translate c s'.memory w, s') ∧ Follows h J scan w s s' := by
  have hpointer : (pointerShape w).isSome := by rw [hp]; rfl
  by_cases hout : c.inFromspace w.datum = false ∨ Forwarded s.memory w.datum
  · obtain ⟨new, hpre, hnew⟩ := gcPrecheckFrom_some limit hout
    refine ⟨s, ?_, follows_out hJ hout⟩
    rw [hsome new hpre, hnew w hpointer rfl]
  · obtain ⟨hin, hf⟩ := not_or.mp hout
    have hin : c.inFromspace w.datum = true := Bool.not_eq_false _ ▸ hin
    exact hnone ⟨hpointer, rfl, hin⟩ (hok.points _ hp hin) hf

theorem Rules.gcTuple (hJ : J scan s) (hok : h.WordOk c w)
    (hp : pointerShape w = some (.tuple n)) (hL : ∀ d, Layout.Refers c w d → L d)
    (hlimit : pending h s.memory < limit) :
    ∃ s', GcLoop.gcTuple c limit w n s = .ok (translate c s'.memory w, s') ∧
      Follows h J scan w s s' := by
  rw [GcLoop.gcTuple]
  refine follows_precheck limit hJ hok hp (fun new hpre => by rw [hpre]; rfl) fun hr hshape hf => ?_
  obtain ⟨t, hpre, hJ', hstep, hheart, hread⟩ := R.copyTuple hJ hshape hf (hL _ hr)
  rw [hpre]
  by_cases htwo : n = 2
  · subst htwo
    obtain ⟨hok', hL'⟩ := R.tuple_word hshape (hL _ hr) (j := 1) (by omega)
    have hpending := hstep.pending_le
    obtain ⟨s', hrun, hJ'', hstep'⟩ := R.transportCdrs limit _ _ hJ' hok' hL' (by omega)
    obtain ⟨hnew, hf'⟩ := hstep'.translate_eq hok hr hheart
    refine ⟨s', ?_, .of_refers hJ'' (hstep.trans hstep') hf'⟩
    rw [← hread 1 (by omega)] at hrun
    rw [← hnew]
    show (GcLoop.transportCdrs c limit limit _ _ >>= fun s => Except.ok (_, s)) = _
    rw [hrun]
    rfl
  · obtain ⟨hnew, hf'⟩ := (Step.refl : Step h scan _ _).translate_eq hok hr hheart
    refine ⟨_, ?_, .of_refers hJ' hstep hf'⟩
    rw [← hnew]
    exact if_neg htwo

theorem Rules.gcVector (hJ : J scan s) (hok : h.WordOk c w) (hp : pointerShape w = some .vector)
    (hL : ∀ d, Layout.Refers c w d → L d) (align) :
    ∃ s', GcLoop.gcVector c limit w align s = .ok (translate c s'.memory w, s') ∧
      Follows h J scan w s s' := by
  rw [GcLoop.gcVector]
  refine follows_precheck limit hJ hok hp (fun new hpre => by rw [hpre]; rfl) fun hr hshape hf => ?_
  have hsize : h.size w.datum = some (1 + (h.memory w.datum).datum) := by
    rw [Layout.size, hshape]
    rfl
  obtain ⟨D, origin, inv⟩ := R.inv hJ
  have hhead := inv.unforwarded hsize hf 0 (by omega)
  rw [Nat.add_zero] at hhead
  obtain ⟨t, hpre, hmem, hcopy⟩ := R.copy hJ hsize hshape trivial hf (hL _ hr)
  obtain ⟨hJ', hstep, -⟩ := hcopy align
  have hheart := (gcTransportWords_transported (c := c) (s := t) (b := w.datum) align
    (h.inside _ _ hsize).1).heart
  obtain ⟨hnew, hf'⟩ := (Step.refl : Step h scan _ _).translate_eq hok hr hheart
  refine ⟨_, ?_, .of_refers hJ' hstep hf'⟩
  rw [hpre, ← hnew]
  show Except.ok _ = _
  rw [hmem, hhead]
  rfl

omit R in
theorem follows_transport (hJ : J scan s) (hok : h.WordOk c w) {shape}
    (hp : pointerShape w = some shape) {transport : Object → State → Except Stop (Object × State)}
    (hcopy : h.shape w.datum = some shape → ¬Forwarded s.memory w.datum → L w.datum →
      ∃ s', GcLoop.transportObject c limit w s transport =
        .ok (w.newAddress (s'.memory w.datum).datum, s') ∧ Follows h J scan w s s')
    (hL : ∀ d, Layout.Refers c w d → L d) :
    ∃ s', GcLoop.transportObject c limit w s transport = .ok (translate c s'.memory w, s') ∧
      Follows h J scan w s s' := by
  refine follows_precheck limit hJ hok hp (fun new hpre => ?_) fun hr hshape hf => ?_
  · rw [GcLoop.transportObject, hpre]
    rfl
  · obtain ⟨s', hrun, hfollows⟩ := hcopy hshape hf (hL _ hr)
    refine ⟨s', ?_, hfollows⟩
    rw [hrun, translate, if_pos ⟨hr.1, hr.2.2⟩]

theorem Rules.handle (hJ : J scan s) (hok : h.WordOk c w) (hL : ∀ d, Layout.Refers c w d → L d)
    (hlimit : pending h s.memory < limit) {space place} (hload : load space place s = w) :
    ∃ s', GcLoop.handle c limit space place w s =
        .ok (place + 1, store space place (translate c s'.memory w) s') ∧
      Follows h J scan w s s' := by
  have hreplace : ∀ r, (∃ s', r = .ok (translate c s'.memory w, s') ∧ Follows h J scan w s s') →
      ∃ s', replaceWord space place r =
        .ok (place + 1, store space place (translate c s'.memory w) s') ∧
        Follows h J scan w s s' := by
    rintro r ⟨s', rfl, hfollows⟩
    exact ⟨s', rfl, hfollows⟩
  have hself : pointerShape w = none →
      translate c s.memory w = w ∧ Follows h J scan w s s := by
    intro hp
    refine ⟨if_neg fun hp' => ?_, hJ, .refl, fun d hr => ?_⟩
    · rw [hp] at hp'
      exact absurd hp'.1 Bool.false_ne_true
    · have := hr.1
      rw [hp] at this
      exact absurd this Bool.false_ne_true
  have hstored : store space place w s = s := by
    cases space with
    | oldspace =>
      rw [← hload]
      exact congrArg (fun m => { s with memory := m }) (update_eq_self ..)
    | tospace =>
      rw [← hload]
      exact congrArg (fun m => { s with tospace := m }) (update_eq_self ..)
  have hscans := hok.scans
  rw [GcLoop.handle]
  cases hentry : gctEntry w.type
  case nonPointer =>
    obtain ⟨hsame, hfollows⟩ := hself (by rw [pointerShape, hentry])
    refine ⟨s, ?_, hfollows⟩
    rw [hsame, hstored]
  case cell => exact hreplace _ (R.gcTuple hJ hok (by rw [pointerShape, hentry]) hL hlimit)
  case pair => exact hreplace _ (R.gcTuple hJ hok (by rw [pointerShape, hentry]) hL hlimit)
  case triple => exact hreplace _ (R.gcTuple hJ hok (by rw [pointerShape, hentry]) hL hlimit)
  case quadruple => exact hreplace _ (R.gcTuple hJ hok (by rw [pointerShape, hentry]) hL hlimit)
  case alignedVector => exact hreplace _ (R.gcVector hJ hok (by rw [pointerShape, hentry]) hL true)
  case unalignedVector =>
    exact hreplace _ (R.gcVector hJ hok (by rw [pointerShape, hentry]) hL false)
  case weakPair =>
    exact hreplace _ (follows_transport hJ hok (by rw [pointerShape, hentry])
      (fun hshape hf hL => R.weakPair hJ hshape hf hL) hL)
  case ephemeron =>
    exact hreplace _ (follows_transport hJ hok (by rw [pointerShape, hentry])
      (fun hshape hf hL => R.ephemeron hJ hshape hf hL) hL)
  case referenceTrap =>
    refine hreplace _ ?_
    by_cases himm : w.datum ≤ trapMaxImmediate
    · obtain ⟨hsame, hfollows⟩ := hself (by rw [pointerShape, hentry]; exact if_pos himm)
      refine ⟨s, ?_, hfollows⟩
      rw [if_pos himm, hsame]
    · rw [if_neg himm]
      exact R.gcTuple hJ hok (by rw [pointerShape, hentry]; exact if_neg himm) hL hlimit
  all_goals
    rw [scansWord, hentry] at hscans
    exact absurd hscans Bool.false_ne_true

/-! ## The loops -/

omit R in
theorem Grows.storeWord {i object} : Grows h s (store .tospace i object s) :=
  ⟨fun _ _ _ _ => rfl, Nat.le_refl _, Nat.le_refl _⟩

omit R in
theorem Grows.storeRoot {a object} (ha : c.inFromspace a = false) :
    Grows h s (store .oldspace a object s) := by
  have hne : ∀ d m, h.size d = some m → d ≠ a := by
    rintro d m hd rfl
    obtain ⟨hpos, hstart, hend⟩ := h.inside d m hd
    rw [Config.inFromspace, decide_eq_false_iff_not] at ha
    exact ha (by omega)
  have hkeeps : ∀ d m, h.size d = some m → Forwarded s.memory d →
      (store .oldspace a object s).memory d = s.memory d :=
    fun d m hd _ => update_of_ne (hne d m hd) _ _
  exact ⟨hkeeps, Nat.add_le_add_left (Finset.sum_le_sum fun b _ => room_le hkeeps b) _,
    Nat.le_refl _⟩

theorem Rules.scanTospace : ∀ (fuel scan : Nat) (s : State), J scan s →
    s.tospaceNext + pending h s.memory < fuel + scan → pending h s.memory < limit →
    ∃ s', runGcLoop c limit .tospace State.tospaceNext fuel scan s = .ok s' ∧
      J s'.tospaceNext s' ∧ Grows h s s' ∧
      ∀ a, c.inFromspace a = false → s'.memory a = s.memory a := by
  intro fuel
  induction fuel with
  | zero =>
    intro scan s hJ hfuel
    obtain ⟨D, origin, inv⟩ := R.inv hJ
    have := inv.tiles.le
    omega
  | succ fuel ih =>
    intro scan s hJ hfuel hlimit
    obtain ⟨D, origin, inv⟩ := R.inv hJ
    rw [runGcLoop]
    by_cases hlt : scan < s.tospaceNext
    · rw [if_pos hlt]
      rcases inv.next_word hlt with ⟨a, ho, hw, hv, hok, hword, -⟩ | ⟨d, hnmv, -⟩
      · have hload : load .tospace scan s = h.view c a := hword
        obtain ⟨s', hrun, hfollows⟩ := R.handle hJ hok
          (fun d hr => inv.edges scan a d ho hw hv hr) hlimit hload
        obtain ⟨hJ', hstep, hforward⟩ := hfollows
        have hsame : s'.tospace scan = h.view c a := (hstep.current hlt).trans hword
        have hJ'' := R.storeWord hJ' (Nat.lt_of_lt_of_le hlt hstep.next)
          (by rw [hsame]; exact hok.scans) (by rw [hsame]; exact hforward)
        rw [hsame] at hJ''
        have hpotential := hstep.potential
        have hpending := hstep.pending_le
        obtain ⟨s'', hrun', hkept, hgrows, hout⟩ := ih (scan + 1)
          (store .tospace scan (translate c s'.memory (h.view c a)) s') hJ''
          (show s'.tospaceNext + pending h s'.memory < _ by omega)
          (show pending h s'.memory < _ by omega)
        refine ⟨s'', ?_, hkept, hstep.toGrows.trans (Grows.storeWord.trans hgrows),
          fun a ha => (hout a ha).trans (hstep.outside a ha)⟩
        rw [hload, hrun]
        exact hrun'
      · obtain ⟨s', hrun, hresult⟩ := ih (scan + 1 + d) s (R.skipWords hJ hlt hnmv) (by omega)
          hlimit
        refine ⟨s', ?_, hresult⟩
        rw [show load .tospace scan s = ⟨.manifestNmVector, d⟩ from hnmv]
        exact hrun
    · rw [if_neg hlt]
      have hle := inv.tiles.le
      obtain rfl : scan = s.tospaceNext := by omega
      exact ⟨s, rfl, hJ, .refl, fun _ _ => rfl⟩

/-- The state after the `n` words from `a` on have been scanned as roots. -/
structure ScannedRoots (h : Heap c) (a n : Nat) (s s' : State) : Prop extends Grows h s s' where
  outside : ∀ x, c.inFromspace x = false → x < a ∨ a + n ≤ x → s'.memory x = s.memory x
  words : ∀ x, h.Field c a n x → s'.memory x = translate c s'.memory (h.view c x) ∧
    ∀ d, Layout.Refers c (h.view c x) d → Forwarded s'.memory d
  raw : ∀ x, a ≤ x → x < a + n → ¬h.Field c a n x → s'.memory x = s.memory x

omit R in
theorem Heap.view_outside (h : Heap c) {a} (ha : c.inFromspace a = false) :
    h.view c a = h.memory a := by
  refine if_neg fun ⟨hweak, _⟩ => ?_
  have hsize : h.size a = some 2 := by
    rw [Layout.size, hweak]
    rfl
  obtain ⟨-, hstart, hend⟩ := h.inside a 2 hsize
  rw [Config.inFromspace, decide_eq_false_iff_not] at ha
  exact ha (by omega)

theorem Rules.scanOldspace {a n} (hwords : h.Words c a n) : ∀ (fuel : Nat) (s : State),
    J scan s → (∀ x, a ≤ x → x < a + n → c.inFromspace x = false) →
    (∀ x, a ≤ x → x < a + n → s.memory x = h.memory x) →
    (∀ x d, h.Field c a n x → Layout.Refers c (h.view c x) d → L d) →
    n < fuel → pending h s.memory < limit →
    ∃ s', runGcLoop c limit .oldspace (fun _ => a + n) fuel a s = .ok s' ∧ J scan s' ∧
      ScannedRoots h a n s s' := by
  induction hwords with
  | nil a =>
    intro fuel s hJ _ _ _ hfuel _
    obtain ⟨fuel, rfl⟩ := Nat.exists_eq_succ_of_ne_zero (Nat.ne_of_gt hfuel)
    rw [runGcLoop, if_neg (by omega)]
    refine ⟨s, rfl, hJ, .refl, fun _ _ _ => rfl, fun x hx => ?_, fun _ _ _ _ => rfl⟩
    have := hx.range
    omega
  | @word a n hok hwords ih =>
    intro fuel s hJ hout hsame hL hfuel hlimit
    obtain ⟨fuel, rfl⟩ := Nat.exists_eq_succ_of_ne_zero (Nat.ne_of_gt (Nat.zero_lt_of_lt hfuel))
    have hview := h.view_outside (hout a (Nat.le_refl a) (by omega))
    have hload : load .oldspace a s = h.view c a :=
      (hsame a (Nat.le_refl a) (by omega)).trans hview.symm
    obtain ⟨s', hrun, hJ', hstep, hforward⟩ := R.handle hJ hok
      (fun d hr => hL a d (.here hok.scans) hr) hlimit hload
    have hin := hout a (Nat.le_refl a) (by omega)
    have hpending := hstep.pending_le
    have hstored : Grows h s' (store .oldspace a (translate c s'.memory (h.view c a)) s') :=
      .storeRoot hin
    have hpending' := hstored.pending_le
    obtain ⟨s'', hrun', hkept, hroots⟩ := ih fuel
      (store .oldspace a (translate c s'.memory (h.view c a)) s') (R.storeRoot hJ' hin)
      (fun x hx hlt => hout x (by omega) (by omega))
      (fun x hx hlt => (update_of_ne (by omega) _ _).trans
        ((hstep.outside x (hout x (by omega) (by omega))).trans (hsame x (by omega) (by omega))))
      (fun x d hx hr => hL x d (.word hok.scans hx) hr) (by omega) (by omega)
    have hgrows : Grows h s' s'' := hstored.trans hroots.toGrows
    refine ⟨s'', ?_, hkept, hstep.toGrows.trans hgrows, fun x hx hrange => ?_, fun x hx => ?_,
      fun x hx hlt hnot => ?_⟩
    · rw [runGcLoop, if_pos (by omega), hload, hrun, ← hrun',
        show a + (n + 1) = a + 1 + n by omega]
      rfl
    · rw [hroots.outside x hx (by omega), ← hstep.outside x hx]
      exact update_of_ne (by omega) _ _
    · rcases (Layout.field_word hok.scans).mp hx with rfl | hx
      · have hsame' : ∀ d, Layout.Refers c (h.view c x) d → s''.memory d = s'.memory d := by
          intro d hr
          obtain ⟨m, hm⟩ := hok.size hr
          exact hgrows.keeps d m hm (hforward d hr)
        refine ⟨?_, fun d hr => ?_⟩
        · rw [hroots.outside x hin (by omega), translate_congr hsame']
          exact update_self ..
        · exact (hforward d hr).congr (hsame' d hr)
      · exact hroots.words x hx
    · have hne : x ≠ a := fun heq => hnot (by rw [heq]; exact .here hok.scans)
      rw [hroots.raw x (by omega) (by omega) fun hf => hnot (.word hok.scans hf),
        ← hstep.outside x (hout x hx hlt)]
      exact update_of_ne hne _ _
  | @skip a n m d hnmv hm hwords ih =>
    intro fuel s hJ hout hsame hL hfuel hlimit
    subst hm
    obtain ⟨fuel, rfl⟩ := Nat.exists_eq_succ_of_ne_zero (Nat.ne_of_gt (Nat.zero_lt_of_lt hfuel))
    have hview := h.view_outside (hout a (Nat.le_refl a) (by omega))
    have hload : load .oldspace a s = ⟨.manifestNmVector, d⟩ :=
      (hsame a (Nat.le_refl a) (by omega)).trans (hview.symm.trans hnmv)
    obtain ⟨s', hrun, hkept, hroots⟩ := ih fuel s hJ (fun x hx hlt => hout x (by omega) (by omega))
      (fun x hx hlt => hsame x (by omega) (by omega))
      (fun x d' hx hr => hL x d' (.skip hnmv rfl hx) hr) (by omega) hlimit
    refine ⟨s', ?_, hkept, hroots.toGrows, fun x hx hrange => hroots.outside x hx (by omega),
      fun x hx => hroots.words x ((Layout.field_skip hnmv).mp hx), fun x hx hlt hnot => ?_⟩
    · rw [runGcLoop, if_pos (by omega), hload, ← hrun,
        show a + (1 + d + n) = a + 1 + d + n by omega]
      rfl
    · by_cases hbefore : x < a + 1 + d
      · exact hroots.outside x (hout x hx hlt) (.inl hbefore)
      · exact hroots.raw x (by omega) (by omega) fun hf => hnot (.skip hnmv rfl hf)

end

end MitScheme.Microcode.GcLoop
