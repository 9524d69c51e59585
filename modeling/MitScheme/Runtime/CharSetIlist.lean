import MitScheme.Lib.InversionList
import MitScheme.Runtime.CharSet

/-! # Character sets: operations on inversion lists

The combiner walks two lists at once and appends to the ranges found so far. The fixnum
comparisons are a parameter: what the walk needs of them is that they compare codes. -/

namespace MitScheme.Runtime.CharSets
open Lib.InversionList
open List (length_cons map_cons mem_cons_of_mem mem_cons_self)

/-- The inversion lists of the source: an even number of increasing places. -/
structure Canonical (l : List Nat) : Prop where
  even : l.length % 2 = 0
  increasing : l.Pairwise (· < ·)
  le_limit : ∀ a ∈ l, a ≤ charCodeLimit

/-- What a list of ranges from `lo` on may be: ranges in order, some of them empty or adjacent. -/
def Weak : Nat → List Nat → Prop
  | lo, s :: e :: l => lo ≤ s ∧ s ≤ e ∧ e ≤ charCodeLimit ∧ Weak e l
  | _, [] => True
  | _, [_] => False

theorem Canonical.ext {l1 l2} (h1 : Canonical l1) (h2 : Canonical l2)
    (h : ∀ cp < charCodeLimit, inside l1 cp = inside l2 cp) : l1 = l2 :=
  eq_of_inside_below h1.increasing h2.increasing h1.even h2.even h1.le_limit h2.le_limit h

/-! ## The combiner -/

section Combiner

variable {m : Type → Type} [Monad m] [LawfulMonad m] {α : Type}

/-- The comparisons read a code; equality has to be right only for the elements that the walk
compares. -/
structure Reads (ops : FixnumOps m α) (code : α → Nat) (ok : α → Prop) : Prop where
  lt : ∀ a b, ops.lt a b = pure (decide (code a < code b))
  eq : ∀ a b, ok a → ok b → ops.eq a b = pure (decide (code a = code b))
  zero : code ops.zero = 0
  limit : code ops.limit = charCodeLimit
  limit_ok : ok ops.limit

/-- The ranges found so far, last place first, are those of `f` below `start`. -/
structure Found (code : α → Nat) (ok : α → Prop) (f : Nat → Bool) (start : Nat)
    (result : List α) : Prop where
  even : result.length % 2 = 0
  decreasing : (result.map code).Pairwise (· > ·)
  le_start : ∀ a ∈ result, code a ≤ start
  ok : ∀ a ∈ result, ok a
  inside : ∀ cp < start, inside (result.map code) cp = f cp

def flags (combine : Bool → Bool → Bool) (v : BitVec 2) : Bool :=
  combine (v &&& 1 == 1) (v &&& 2 == 2)

def bit (k : BitVec 2) (b : Bool) : BitVec 2 := if b then k else 0

variable {ops : FixnumOps m α} {code : α → Nat} {ok : α → Prop} {combine : Bool → Bool → Bool}
  {f : Nat → Bool} {v vi : BitVec 2} {s e a b : α} {result il1 il2 : List α}

theorem Found.inside_ge {start cp} (h : Found code ok f start result) (hcp : start ≤ cp) :
    MitScheme.Lib.InversionList.inside (result.map code) cp = false := by
  rw [inside_of_all_le, List.length_map, h.even]
  · rfl
  · simpa using fun a ha => (h.le_start a ha).trans hcp

theorem process_spec (hops : Reads ops code ok) (h : Found code ok f (code s) result)
    (hse : code s ≤ code e) (hs : flags combine v = true → ok s) (he : ok e)
    (hf : ∀ cp, code s ≤ cp → cp < code e → f cp = flags combine v) :
    ∃ r, process ops combine v s e result = pure r ∧ Found code ok f (code e) r := by
  unfold process
  rw [hops.lt, pure_bind]
  by_cases hcond : (decide (code s < code e) && flags combine v) = true
  · have hboth := hcond
    rw [Bool.and_eq_true, decide_eq_true_eq] at hboth
    obtain ⟨hlt, hflags⟩ := hboth
    rw [show (decide (code s < code e) && combine (v &&& 1 == 1) (v &&& 2 == 2)) = true from hcond,
      if_pos rfl]
    have hoks := hs hflags
    have hbelow : ∀ a ∈ result, code a < code e := fun a ha => (h.le_start a ha).trans_lt hlt
    have hstretch {cp : Nat} (h1 : code s ≤ cp) (h2 : cp < code e) : f cp = true :=
      (hf cp h1 h2).trans hflags
    -- the stretch becomes a range of its own
    have hnew (hs : ∀ a ∈ result, code a < code s) :
        Found code ok f (code e) (e :: s :: result) := by
      refine ⟨?_, ?_, ?_, ?_, ?_⟩
      · have := h.even
        simp only [length_cons]
        omega
      · simp only [map_cons, List.pairwise_cons, List.mem_cons, List.mem_map]
        refine ⟨?_, ?_, h.decreasing⟩
        · rintro x (rfl | ⟨a, ha, rfl⟩)
          · exact hlt
          · exact hbelow a ha
        · rintro x ⟨a, ha, rfl⟩
          exact hs a ha
      · intro a ha
        rcases List.mem_cons.mp ha with rfl | ha
        · exact le_rfl
        rcases List.mem_cons.mp ha with rfl | ha
        · exact hse
        · exact (hbelow a ha).le
      · intro a ha
        rcases List.mem_cons.mp ha with rfl | ha
        · exact he
        rcases List.mem_cons.mp ha with rfl | ha
        · exact hoks
        · exact h.ok a ha
      · intro cp hcp
        rw [map_cons, map_cons, inside_cons_lt hcp]
        rcases lt_or_ge cp (code s) with hlow | hlow
        · rw [inside_cons_lt hlow, h.inside cp hlow]
        · rw [inside_cons_le hlow, h.inside_ge hlow, hstretch hlow hcp]
          rfl
    rcases result with _ | ⟨r, _ | ⟨p, rest⟩⟩
    · exact ⟨_, rfl, hnew (by simp)⟩
    · exact absurd h.even (by simp)
    · dsimp only
      rw [hops.eq s r hoks (h.ok r mem_cons_self), pure_bind]
      have hdec := List.pairwise_cons.mp h.decreasing
      by_cases heq : code s = code r
      · -- the stretch continues the last range
        rw [if_pos (by simpa using heq)]
        refine ⟨_, rfl, ?_, ?_, ?_, ?_, ?_⟩
        · simpa using h.even
        · rw [map_cons, List.pairwise_cons]
          refine ⟨fun x hx => ?_, hdec.2⟩
          exact (hdec.1 x hx).trans (by rw [← heq]; exact hlt)
        · intro a ha
          rcases List.mem_cons.mp ha with rfl | ha
          · exact le_rfl
          · exact (hbelow a (mem_cons_of_mem _ ha)).le
        · intro a ha
          rcases List.mem_cons.mp ha with rfl | ha
          · exact he
          · exact h.ok a (mem_cons_of_mem _ ha)
        · intro cp hcp
          rw [map_cons, inside_cons_lt hcp]
          rcases lt_or_ge cp (code s) with hlow | hlow
          · have hr : cp < code r := heq ▸ hlow
            exact (inside_cons_lt hr).symm.trans (h.inside cp hlow)
          · have hout := h.inside_ge hlow
            rw [map_cons, inside_cons_le (heq ▸ hlow)] at hout
            rw [hstretch hlow hcp]
            simpa using hout
      · rw [if_neg (by simpa using heq)]
        refine ⟨_, rfl, hnew fun a ha => ?_⟩
        have hr : code r < code s :=
          lt_of_le_of_ne (h.le_start r mem_cons_self) (Ne.symm heq)
        rcases List.mem_cons.mp ha with rfl | ha
        · exact hr
        · exact (hdec.1 _ (List.mem_map_of_mem ha)).trans hr
  · rw [show (decide (code s < code e) && combine (v &&& 1 == 1) (v &&& 2 == 2)) = false from
      Bool.eq_false_of_not_eq_true hcond, if_neg Bool.false_ne_true]
    refine ⟨result, rfl, h.even, h.decreasing, fun a ha => (h.le_start a ha).trans hse, h.ok, ?_⟩
    intro cp hcp
    rcases lt_or_ge cp (code s) with hlow | hlow
    · exact h.inside cp hlow
    · rw [h.inside_ge hlow, hf cp hlow hcp]
      rw [Bool.and_eq_true, decide_eq_true_eq] at hcond
      exact (Bool.eq_false_of_not_eq_true fun hfl => hcond ⟨hlow.trans_lt hcp, hfl⟩).symm

theorem Found.close (hops : Reads ops code ok) (h : Found code ok f (code s) result)
    (hlim : code s ≤ charCodeLimit) (hs : flags combine v = true → ok s)
    (hf : ∀ cp, code s ≤ cp → cp < charCodeLimit → f cp = flags combine v) :
    ∃ r, combineTail ops combine v vi s [] result = pure r ∧
      Found code ok f charCodeLimit r.reverse := by
  rw [combineTail, hops.lt, pure_bind, hops.limit]
  by_cases hlt : code s < charCodeLimit
  · rw [if_pos (by simpa using hlt)]
    obtain ⟨r, hr, hfound⟩ := process_spec (e := ops.limit) hops h
      (by rw [hops.limit]; exact hlim) hs hops.limit_ok
      (by rw [hops.limit]; exact hf)
    rw [hr, pure_bind]
    rw [hops.limit] at hfound
    exact ⟨_, rfl, by rw [List.reverse_reverse]; exact hfound⟩
  · rw [if_neg (by simpa using hlt)]
    refine ⟨_, rfl, ?_⟩
    rw [List.reverse_reverse]
    rwa [show code s = charCodeLimit by omega] at h

theorem combineTail_spec (hops : Reads ops code ok) (il : List α)
    (h : Found code ok f (code s) result) (hlim : code s ≤ charCodeLimit)
    (hs : flags combine v = true → ok s) (hsorted : ((s :: il).map code).Pairwise (· ≤ ·))
    (hok : ∀ a ∈ il, ok a ∧ code a ≤ charCodeLimit)
    (hf : ∀ cp, code s ≤ cp → cp < charCodeLimit →
      f cp = flags combine (v ^^^ bit vi (inside (il.map code) cp))) :
    ∃ r, combineTail ops combine v vi s il result = pure r ∧
      Found code ok f charCodeLimit r.reverse := by
  induction il generalizing v s result with
  | nil => exact h.close hops hlim hs (by simpa [bit] using hf)
  | cons e il ih =>
    rw [map_cons, List.pairwise_cons] at hsorted
    obtain ⟨hle, hsorted⟩ := hsorted
    have hse : code s ≤ code e := hle _ (by simp)
    obtain ⟨hoke, hlime⟩ := hok e mem_cons_self
    have hbelow {cp : Nat} (hcp : cp < code e) : inside ((e :: il).map code) cp = false := by
      refine inside_eq_false fun x hx => ?_
      rcases List.mem_cons.mp hx with rfl | hx
      · exact hcp
      · exact hcp.trans_le ((List.pairwise_cons.mp hsorted).1 x hx)
    obtain ⟨r, hr, hfound⟩ := process_spec (v := v) hops h hse hs hoke
      fun cp h1 h2 => by
        rw [hf cp h1 (h2.trans_le hlime), hbelow h2]
        simp [bit]
    rw [combineTail, hr, pure_bind]
    refine ih hfound hlime (fun _ => hoke) hsorted
      (fun a ha => hok a (mem_cons_of_mem _ ha)) fun cp h1 h2 => ?_
    rw [hf cp (hse.trans h1) h2, map_cons, inside_cons_le h1]
    congr 1
    cases inside (il.map code) cp <;> simp [bit, BitVec.xor_assoc]

theorem toggle_left : ∀ (v : BitVec 2) (b1 b2 : Bool),
    v ^^^ bit 1 (!b1) ^^^ bit 2 b2 = v ^^^ 1 ^^^ bit 1 b1 ^^^ bit 2 b2 := by decide

theorem toggle_right : ∀ (v : BitVec 2) (b1 b2 : Bool),
    v ^^^ bit 1 b1 ^^^ bit 2 (!b2) = v ^^^ 2 ^^^ bit 1 b1 ^^^ bit 2 b2 := by decide

theorem toggle_both : ∀ (v : BitVec 2) (b1 b2 : Bool),
    v ^^^ bit 1 (!b1) ^^^ bit 2 (!b2) = v ^^^ 3 ^^^ bit 1 b1 ^^^ bit 2 b2 := by decide

omit [LawfulMonad m] in
theorem combineLoop_nil_left : combineLoop ops combine v s [] il2 result =
    combineTail ops combine v 2 s il2 result := by
  unfold combineLoop
  rfl

omit [LawfulMonad m] in
theorem combineLoop_nil_right : combineLoop ops combine v s il1 [] result =
    combineTail ops combine v (if il1 = [] then 2 else 1) s il1 result := by
  cases il1 <;> (unfold combineLoop; rfl)

variable (combine) in
theorem combineLoop_spec (hops : Reads ops code ok) (il1 il2 : List α)
    (h : Found code ok f (code s) result) (hlim : code s ≤ charCodeLimit)
    (hs : flags combine v = true → ok s) (hsorted1 : ((s :: il1).map code).Pairwise (· ≤ ·))
    (hsorted2 : ((s :: il2).map code).Pairwise (· ≤ ·))
    (hok1 : ∀ a ∈ il1, ok a ∧ code a ≤ charCodeLimit)
    (hok2 : ∀ a ∈ il2, ok a ∧ code a ≤ charCodeLimit)
    (hf : ∀ cp, code s ≤ cp → cp < charCodeLimit →
      f cp = flags combine
        (v ^^^ bit 1 (inside (il1.map code) cp) ^^^ bit 2 (inside (il2.map code) cp))) :
    ∃ r, combineLoop ops combine v s il1 il2 result = pure r ∧
      Found code ok f charCodeLimit r.reverse := by
  induction hn : il1.length + il2.length using Nat.strong_induction_on
    generalizing v s result il1 il2 with
  | _ n ih =>
  rcases il1 with _ | ⟨a, il1⟩
  · rw [combineLoop_nil_left]
    exact combineTail_spec hops il2 h hlim hs hsorted2 hok2 (by simpa [bit] using hf)
  rcases il2 with _ | ⟨b, il2⟩
  · rw [combineLoop_nil_right, if_neg (List.cons_ne_nil a il1)]
    exact combineTail_spec hops (a :: il1) h hlim hs hsorted1 hok1 (by simpa [bit] using hf)
  have hs1 := List.pairwise_cons.mp hsorted1
  have hs2 := List.pairwise_cons.mp hsorted2
  have hsa : code s ≤ code a := hs1.1 _ (by simp)
  have hsb : code s ≤ code b := hs2.1 _ (by simp)
  obtain ⟨hoka, hlima⟩ := hok1 a mem_cons_self
  obtain ⟨hokb, hlimb⟩ := hok2 b mem_cons_self
  have hbelow {x : α} {l : List α} {cp : Nat} (hl : ((x :: l).map code).Pairwise (· ≤ ·))
      (hcp : cp < code x) : inside ((x :: l).map code) cp = false := by
    refine inside_eq_false fun y hy => ?_
    rcases List.mem_cons.mp hy with rfl | hy
    · exact hcp
    · exact hcp.trans_le ((List.pairwise_cons.mp hl).1 y hy)
  have hbeyond {x : α} {l : List α} {cp : Nat} (hcp : code x ≤ cp) :
      inside ((x :: l).map code) cp = !inside (l.map code) cp := inside_cons_le hcp
  have hstep (e : α) (hse : code s ≤ code e) (hea : code e ≤ code a) (heb : code e ≤ code b)
      (he : ok e) : ∃ r, process ops combine v s e result = pure r ∧
        Found code ok f (code e) r :=
    process_spec hops h hse hs he fun cp h1 h2 => by
      rw [hf cp h1 (by omega), hbelow hs1.2 (by omega), hbelow hs2.2 (by omega)]
      simp [bit]
  -- the part of a list that starts at or after the place
  have hkeep {e x : α} {l : List α} (hex : code e ≤ code x)
      (hl : ((x :: l).map code).Pairwise (· ≤ ·)) :
      ((e :: x :: l).map code).Pairwise (· ≤ ·) := by
    refine List.pairwise_cons.mpr ⟨fun y hy => ?_, hl⟩
    rcases List.mem_cons.mp hy with rfl | hy
    · exact hex
    · exact hex.trans ((List.pairwise_cons.mp hl).1 y hy)
  unfold combineLoop
  rw [hops.lt, pure_bind]
  rcases lt_trichotomy (code a) (code b) with hab | hab | hab
  · obtain ⟨r, hr, hfound⟩ := hstep a hsa le_rfl hab.le hoka
    rw [decide_eq_true hab, if_pos rfl]
    simp only [hr, pure_bind, hops.lt, decide_eq_true hab, if_true]
    refine ih _ (by simp only [length_cons] at hn ⊢; omega) il1 (b :: il2) hfound hlima
      (fun _ => hoka) hs1.2 (hkeep hab.le hs2.2) (fun x hx => hok1 x (mem_cons_of_mem _ hx))
      hok2 (fun cp h1 h2 => ?_) rfl
    rw [hf cp (hsa.trans h1) h2, hbeyond h1]
    rw [toggle_left]
  · obtain ⟨r, hr, hfound⟩ := hstep b hsb hab.ge le_rfl hokb
    rw [decide_eq_false (by omega), if_neg Bool.false_ne_true]
    simp only [hr, pure_bind, hops.lt, hab, lt_irrefl, decide_false, Bool.false_eq_true, if_false]
    refine ih _ (by simp only [length_cons] at hn ⊢; omega) il1 il2 hfound hlimb
      (fun _ => hokb) (by rw [map_cons, ← hab, ← map_cons]; exact hs1.2) hs2.2
      (fun x hx => hok1 x (mem_cons_of_mem _ hx))
      (fun x hx => hok2 x (mem_cons_of_mem _ hx)) (fun cp h1 h2 => ?_) rfl
    rw [hf cp (hsb.trans h1) h2, hbeyond h1, hbeyond (hab.trans_le h1)]
    rw [toggle_both]
  · obtain ⟨r, hr, hfound⟩ := hstep b hsb hab.le le_rfl hokb
    rw [decide_eq_false (by omega), if_neg Bool.false_ne_true]
    simp only [hr, pure_bind, hops.lt, hab, lt_irrefl, decide_false, Bool.false_eq_true, if_false,
      decide_true, if_true]
    refine ih _ (by simp only [length_cons] at hn ⊢; omega) (a :: il1) il2 hfound hlimb
      (fun _ => hokb) (hkeep hab.le hs1.2) hs2.2 hok1
      (fun x hx => hok2 x (mem_cons_of_mem _ hx)) (fun cp h1 h2 => ?_) rfl
    rw [hf cp (hsb.trans h1) h2, hbeyond h1]
    rw [toggle_right]

variable (combine) in
theorem ilistCombiner_spec (hops : Reads ops code ok) (hcombine : combine false false = false)
    (hsorted1 : (il1.map code).Pairwise (· ≤ ·)) (hsorted2 : (il2.map code).Pairwise (· ≤ ·))
    (hok1 : ∀ a ∈ il1, ok a ∧ code a ≤ charCodeLimit)
    (hok2 : ∀ a ∈ il2, ok a ∧ code a ≤ charCodeLimit) :
    ∃ r, ilistCombiner ops combine il1 il2 = pure r ∧ Canonical (r.map code) ∧ (∀ a ∈ r, ok a) ∧
      ∀ cp < charCodeLimit, inside (r.map code) cp =
        combine (inside (il1.map code) cp) (inside (il2.map code) cp) := by
  have hzero {l : List α} (hl : (l.map code).Pairwise (· ≤ ·)) :
      ((ops.zero :: l).map code).Pairwise (· ≤ ·) :=
    List.pairwise_cons.mpr ⟨fun x _ => by rw [hops.zero]; exact Nat.zero_le x, hl⟩
  have hnone : Found code ok
      (fun cp => combine (inside (il1.map code) cp) (inside (il2.map code) cp)) (code ops.zero) [] :=
    ⟨rfl, List.Pairwise.nil, by simp, by simp, by simp [hops.zero]⟩
  obtain ⟨r, hr, hfound⟩ := combineLoop_spec combine (v := 0) hops il1 il2 hnone
    (by rw [hops.zero]; exact Nat.zero_le _) (by simp [flags, hcombine]) (hzero hsorted1)
    (hzero hsorted2) hok1 hok2 fun cp _ _ => by
      cases inside (il1.map code) cp <;> cases inside (il2.map code) cp <;> rfl
  refine ⟨r, hr, ⟨?_, ?_, ?_⟩, fun a ha => hfound.ok a (List.mem_reverse.mpr ha), ?_⟩
  · simpa using hfound.even
  · have := hfound.decreasing
    rwa [List.map_reverse, List.pairwise_reverse] at this
  · intro x hx
    obtain ⟨a, ha, rfl⟩ := List.mem_map.mp hx
    exact hfound.le_start a (List.mem_reverse.mpr ha)
  · intro cp hcp
    have := hfound.inside cp hcp
    rwa [List.map_reverse, inside_reverse] at this

end Combiner

/-! ## Ordered lists of places -/

structure Ordered (l : List Nat) : Prop where
  nondecreasing : l.Pairwise (· ≤ ·)
  le_limit : ∀ a ∈ l, a ≤ charCodeLimit

theorem Canonical.ordered {l} (h : Canonical l) : Ordered l :=
  ⟨h.increasing.imp fun hab => le_of_lt hab, h.le_limit⟩

theorem canonical_nil : Canonical [] := ⟨rfl, List.Pairwise.nil, by simp⟩

theorem Weak.mono {lo lo' l} (h : Weak lo l) (hlo : lo' ≤ lo) : Weak lo' l := by
  rcases l with _ | ⟨s, _ | ⟨e, l⟩⟩
  · trivial
  · exact h
  · exact ⟨hlo.trans h.1, h.2⟩

theorem Weak.le_of_mem {lo a l} (h : Weak lo l) (ha : a ∈ l) : lo ≤ a ∧ a ≤ charCodeLimit := by
  fun_induction Weak lo l with
  | case1 lo s e l ih =>
    obtain ⟨h1, h2, h3, h4⟩ := h
    rcases List.mem_cons.mp ha with rfl | ha
    · omega
    rcases List.mem_cons.mp ha with rfl | ha
    · omega
    · have := ih h4 ha
      omega
  | case2 => cases ha
  | case3 => exact h.elim

theorem Weak.ordered {lo l} (h : Weak lo l) : Ordered l := by
  refine ⟨?_, fun a ha => (h.le_of_mem ha).2⟩
  fun_induction Weak lo l with
  | case1 lo s e l ih =>
    obtain ⟨h1, h2, h3, h4⟩ := h
    refine List.pairwise_cons.mpr ⟨fun a ha => ?_, List.pairwise_cons.mpr ⟨fun a ha => ?_, ih h4⟩⟩
    · rcases List.mem_cons.mp ha with rfl | ha
      · exact h2
      · exact h2.trans (h4.le_of_mem ha).1
    · exact (h4.le_of_mem ha).1
  | case2 => exact List.Pairwise.nil
  | case3 => exact h.elim

theorem Canonical.weak {lo l} (h : Canonical l) (hlo : ∀ a ∈ l, lo ≤ a) : Weak lo l := by
  fun_induction Weak lo l with
  | case1 lo s e l ih =>
    obtain ⟨hs, he, hl⟩ := (List.pairwise_cons.mp h.increasing).imp_right List.pairwise_cons.mp
    refine ⟨hlo s (by simp), (hs e (by simp)).le, h.le_limit e (by simp), ih ⟨?_, hl, ?_⟩ ?_⟩
    · have := h.even
      simp only [length_cons] at this
      omega
    · exact fun a ha => h.le_limit a (by simp [ha])
    · exact fun a ha => (he a ha).le
  | case2 => trivial
  | case3 => exact absurd h.even (by simp)

theorem Weak.even {lo l} (h : Weak lo l) : l.length % 2 = 0 := by
  fun_induction Weak lo l with
  | case1 lo s e l ih => 
    have := ih h.2.2.2
    simp only [length_cons]
    omega
  | case2 => rfl
  | case3 => exact h.elim

theorem Weak.inside_lt {lo cp l} (h : Weak lo l) (hcp : cp < lo) : inside l cp = false :=
  inside_eq_false fun _ ha => hcp.trans_le (h.le_of_mem ha).1

theorem Weak.inside_lt_limit {lo cp l} (h : Weak lo l) (hcp : inside l cp = true) :
    cp < charCodeLimit := by
  by_contra hge
  rw [inside_of_all_le fun a ha => (h.le_of_mem ha).2.trans (not_lt.mp hge), h.even] at hcp
  cases hcp

theorem reads_fixnumOps : Reads fixnumOps id fun _ => True where
  lt _ _ := rfl
  eq _ _ _ _ := rfl
  zero := rfl
  limit := rfl
  limit_ok := trivial

section Fixnums

variable {combine : Bool → Bool → Bool} {il1 il2 : List Nat}

variable (combine) in
theorem combiner_fixnums (hcombine : combine false false = false) (h1 : Ordered il1)
    (h2 : Ordered il2) :
    Canonical (ilistCombiner (m := Id) fixnumOps combine il1 il2) ∧ ∀ cp < charCodeLimit,
      inside (ilistCombiner (m := Id) fixnumOps combine il1 il2) cp =
        combine (inside il1 cp) (inside il2 cp) := by
  obtain ⟨r, hr, hcanon, -, hinside⟩ := ilistCombiner_spec combine
    reads_fixnumOps hcombine (by simpa using h1.nondecreasing) (by simpa using h2.nondecreasing)
    (fun a ha => ⟨trivial, h1.le_limit a ha⟩) fun a ha => ⟨trivial, h2.le_limit a ha⟩
  rw [List.map_id] at hcanon
  simp only [List.map_id] at hinside
  rw [show ilistCombiner (m := Id) fixnumOps combine il1 il2 = r from hr]
  exact ⟨hcanon, hinside⟩

theorem union_spec (h1 : Ordered il1) (h2 : Ordered il2) : Canonical (ilistUnion il1 il2) ∧
    ∀ cp < charCodeLimit, inside (ilistUnion il1 il2) cp = (inside il1 cp || inside il2 cp) :=
  combiner_fixnums (fun a b => a || b) rfl h1 h2

theorem intersection_spec (h1 : Ordered il1) (h2 : Ordered il2) :
    Canonical (ilistIntersection il1 il2) ∧ ∀ cp < charCodeLimit,
      inside (ilistIntersection il1 il2) cp = (inside il1 cp && inside il2 cp) :=
  combiner_fixnums (fun a b => a && b) rfl h1 h2

theorem difference_spec (h1 : Ordered il1) (h2 : Ordered il2) :
    Canonical (ilistDifference il1 il2) ∧ ∀ cp < charCodeLimit,
      inside (ilistDifference il1 il2) cp = (inside il1 cp && !inside il2 cp) :=
  combiner_fixnums (fun a b => a && !b) rfl h1 h2

theorem xor_spec (h1 : Ordered il1) (h2 : Ordered il2) : Canonical (ilistXor il1 il2) ∧
    ∀ cp < charCodeLimit, inside (ilistXor il1 il2) cp = xor (inside il1 cp) (inside il2 cp) := by
  obtain ⟨hcanon, hinside⟩ :=
    combiner_fixnums (fun a b => if a then !b else b) rfl h1 h2
  refine ⟨hcanon, fun cp hcp => (hinside cp hcp).trans ?_⟩
  cases inside il1 cp <;> cases inside il2 cp <;> rfl

end Fixnums

/-! ## Inversion -/

/-- The ranges between the ranges of `l`, from `start` on. -/
def gaps : Nat → List Nat → List Nat
  | start, s :: e :: l => start :: s :: gaps e l
  | start, _ => if start < charCodeLimit then [start, charCodeLimit] else []

theorem invertLoop_eq (start : Nat) (l inverse : List Nat) :
    invertLoop start l inverse = inverse.reverse ++ gaps start l := by
  fun_induction gaps start l generalizing inverse with
  | case1 start s e l ih => rw [invertLoop, ih]; simp
  | case2 l start hlt hl => rw [invertLoop]; simp [hlt]; exact hl
  | case3 l start hlt hl => rw [invertLoop]; simp [hlt]; exact hl

theorem gaps_weak {start l} (h : Weak start l) : Weak start (gaps start l) := by
  fun_induction gaps start l with
  | case1 start s e l ih =>
    obtain ⟨h1, h2, h3, h4⟩ := h
    exact ⟨le_rfl, h1, by omega, (ih h4).mono h2⟩
  | case2 l start hlt hl => exact ⟨le_rfl, hlt.le, le_rfl, trivial⟩
  | case3 => trivial

theorem inside_gaps {start cp l} (h : Weak start l) (hcp : cp < charCodeLimit) :
    inside (gaps start l) cp = (decide (start ≤ cp) && !inside l cp) := by
  fun_induction gaps start l with
  | case1 start s e l ih =>
    obtain ⟨h1, h2, h3, h4⟩ := h
    rw [inside_range h1, inside_range h2, ih h4]
    by_cases hlt : cp < e
    · rw [h4.inside_lt hlt]
      grind
    · grind
  | case2 l start hlt hl =>
    have hnil : l = [] := by
      rcases l with _ | ⟨s, _ | ⟨e, l⟩⟩
      · rfl
      · exact h.elim
      · exact (hl s e l rfl).elim
    rw [hnil, inside_range hlt.le]
    simp [hcp]
  | case3 l start hlt hl =>
    have : ¬ start ≤ cp := by omega
    simp [this]

theorem gaps_increasing {start l} (h : Weak start l) (hl : (start :: l).Pairwise (· < ·)) :
    (gaps start l).Pairwise (· < ·) := by
  fun_induction gaps start l with
  | case1 start s e l ih =>
    obtain ⟨h1, h2, h3, h4⟩ := h
    obtain ⟨hs, he⟩ := List.pairwise_cons.mp hl
    obtain ⟨hse, hel⟩ := List.pairwise_cons.mp he
    have hge : ∀ a ∈ gaps e l, e ≤ a := fun a ha => ((gaps_weak h4).le_of_mem ha).1
    have hss := hs s (by simp)
    have hlt := hse e (by simp)
    refine List.pairwise_cons.mpr ⟨fun a ha => ?_, List.pairwise_cons.mpr ⟨fun a ha => ?_,
      ih h4 hel⟩⟩
    · rcases List.mem_cons.mp ha with rfl | ha
      · exact hss
      · exact (hss.trans hlt).trans_le (hge a ha)
    · exact hlt.trans_le (hge a ha)
  | case2 l start hlt hl => simpa using hlt
  | case3 => exact List.Pairwise.nil

theorem ilistInvert_eq {l} (h : Weak 0 l) :
    (ilistInvert l = gaps 0 l ∧ ∀ s ∈ l.head?, 0 < s) ∨
      ∃ e t, l = 0 :: e :: t ∧ ilistInvert l = gaps e t := by
  rcases l with _ | ⟨s, _ | ⟨e, l⟩⟩
  · exact .inl ⟨invertLoop_eq 0 [] [], by simp⟩
  · exact h.elim
  · rw [ilistInvert]
    by_cases hs : 0 < s
    · rw [if_pos hs, invertLoop_eq]
      exact .inl ⟨rfl, by simpa using hs⟩
    · rw [if_neg hs, invertLoop_eq]
      obtain rfl : s = 0 := by omega
      exact .inr ⟨e, l, rfl, rfl⟩

theorem ilistInvert_weak {l} (h : Weak 0 l) : Weak 0 (ilistInvert l) := by
  obtain ⟨heq, -⟩ | ⟨e, t, rfl, heq⟩ := ilistInvert_eq h <;> rw [heq]
  · exact gaps_weak h
  · exact (gaps_weak h.2.2.2).mono (Nat.zero_le e)

theorem inside_ilistInvert {l} (h : Weak 0 l) {cp} (hcp : cp < charCodeLimit) :
    inside (ilistInvert l) cp = !inside l cp := by
  obtain ⟨heq, -⟩ | ⟨e, t, rfl, heq⟩ := ilistInvert_eq h <;> rw [heq]
  · rw [inside_gaps h hcp]
    simp
  · obtain ⟨-, h2, -, h4⟩ := h
    rw [inside_gaps h4 hcp, inside_range h2]
    by_cases hlt : cp < e
    · rw [h4.inside_lt hlt]
      simp [hlt]
    · simp [hlt, not_lt.mp hlt]

theorem ilistInvert_canonical {l} (h : Canonical l) : Canonical (ilistInvert l) := by
  have hweak := h.weak fun a _ => Nat.zero_le a
  have hinv := ilistInvert_weak hweak
  refine ⟨hinv.even, ?_, hinv.ordered.le_limit⟩
  obtain ⟨heq, hpos⟩ | ⟨e, t, rfl, heq⟩ := ilistInvert_eq hweak <;> rw [heq]
  · refine gaps_increasing hweak (List.pairwise_cons.mpr ⟨fun a ha => ?_, h.increasing⟩)
    rcases l with _ | ⟨s, l⟩
    · cases ha
    · have hs := hpos s rfl
      rcases List.mem_cons.mp ha with rfl | ha
      · exact hs
      · exact hs.trans ((List.pairwise_cons.mp h.increasing).1 a ha)
  · exact gaps_increasing hweak.2.2.2 (List.pairwise_cons.mp h.increasing).2

end MitScheme.Runtime.CharSets
