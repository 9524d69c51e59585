import MitScheme.Runtime.NumberFinish

/-! # The steps of the number parser

What is known of the text behind a state, that one step keeps it, and where a step
ends the parse. -/

namespace MitScheme.Runtime.NumberParser
open Arith Lib.Outcome
open Lib.Halting (Next)

variable {F : Type} {flo : Flonums F}

/-! ## What a state knows -/

def Comp.place : Comp F → Place
  | real => .real
  | imag _ => .imag
  | angle _ => .angle

def State.comp : State F → Comp F
  | number .. => .real
  | topLevel _ _ _ comp | leader _ _ _ _ comp => comp
  | digits _ _ _ ctx | sharps _ _ _ ctx | dotted1 _ ctx | dotted2 _ _ _ ctx | dotted3 _ _ _ ctx
  | exponent1 _ _ _ _ ctx | exponentDigits _ _ _ _ _ _ ctx | complex _ _ ctx
  | nanPayload _ _ _ ctx => ctx.comp

def State.radix : State F → Radix
  | number input _ radix defaultRadix => ((markedRadix input radix).or defaultRadix).getD .ten
  | topLevel _ _ radix _ => radix.getD .ten
  | leader _ _ radix _ _ => radix
  | digits _ _ _ ctx | sharps _ _ _ ctx | dotted1 _ ctx | dotted2 _ _ _ ctx | dotted3 _ _ _ ctx
  | exponent1 _ _ _ _ ctx | exponentDigits _ _ _ _ _ _ ctx | complex _ _ ctx
  | nanPayload _ _ _ ctx => ctx.radix

def State.inNumber : State F → Bool
  | number .. => false
  | _ => true

/-- The exactness that a number is marked with. -/
def explicit (exactness : Option Exactness) : Option Exactness :=
  if exactness = some .implicitInexact then none else exactness

theorem explicit_orImplicit (x) : explicit (orImplicit x) = explicit x := by
  rcases x with _ | _ | _ | _ <;> rfl

theorem orImplicit_explicit (x) : orImplicit (explicit x) = orImplicit x := by
  rcases x with _ | _ | _ | _ <;> rfl

theorem explicit_explicit (x) : explicit (explicit x) = explicit x := by
  rcases x with _ | _ | _ | _ <;> rfl

/-- The exactness `x` of a number with a point or an exponent, in a text marked with `e`. -/
def Implied (e x : Option Exactness) : Prop := explicit x = e ∧ x = orImplicit e

theorem Implied.of_explicit {e x} (h : explicit x = e) : Implied e (orImplicit x) :=
  ⟨(explicit_orImplicit x).trans h, by rw [← h, orImplicit_explicit]⟩

theorem explicit_eq_exact {x} : explicit x = some .exact ↔ x = some .exact := by
  rcases x with _ | _ | _ | _ <;> decide

theorem exactnessMarker_some {char e} (h : exactnessMarker char = some e) :
    e ≠ .implicitInexact ∧ char ∈ ['e', 'E', 'i', 'I'] := by
  rw [exactnessMarker] at h
  split at h
  · rename_i hc
    cases h
    rcases hc with rfl | rfl <;> decide
  · split at h
    · rename_i hc
      cases h
      rcases hc with rfl | rfl <;> decide
    · cases h

theorem Marks.explicit {m e r} (h : Marks m e r) : explicit e = e := by
  induction h with
  | nil => rfl
  | radix _ _ ih => exact ih
  | exactness _ he _ => exact if_neg fun h => (exactnessMarker_some he).1 (Option.some.inj h)

/-- What was read of the digits behind which `goal` goes on. -/
def Goal.Word (ctx : Context F) (sharp : Bool) (input : List Char) (integer : Nat) :
    Goal → List Char → Prop
  | .integer, w => Integer ctx.radix ctx.sign sharp w integer
  | .denominator _ start, w => ∃ b a n, Integer ctx.radix ctx.sign b a n ∧
      Places ctx.radix (a ++ ['/']) 0 sharp w integer ∧ w ++ input = a ++ '/' :: start

/-- What was read of a number. -/
def Word (flo : Flonums F) (e : Option Exactness) : State F → List Char → Prop
  | .number .., _ => False
  | .topLevel _ exactness _ _, w => explicit exactness = e ∧ w = []
  | .leader _ exactness _ sign _, w => explicit exactness = e ∧ w = [sign.char]
  | .digits input integer goal ctx, w =>
    explicit ctx.exactness = e ∧ goal.Word ctx false input integer w
  | .sharps input integer goal ctx, w =>
    explicit ctx.exactness = e ∧ goal.Word ctx true input integer w
  | .dotted1 _ ctx, w => Implied e ctx.exactness ∧ w = signText ctx.sign ++ ['.'] ∧
      (ctx.sign.isSome ∨ ctx.radix = .ten ∨ ctx.radix = .sixteen)
  | .dotted2 _ integer rexponent ctx, w =>
    Implied e ctx.exactness ∧ Point ctx.radix ctx.sign false w integer rexponent
  | .dotted3 _ integer rexponent ctx, w =>
    Implied e ctx.exactness ∧ Point ctx.radix ctx.sign true w integer rexponent
  | .exponent1 _ integer rexponent base ctx, w =>
    Implied e ctx.exactness ∧ Marked ctx.radix ctx.sign base w integer rexponent
  | .exponentDigits _ eint esign integer rexponent base ctx, w =>
    Implied e ctx.exactness ∧
      Exponent ctx.radix ctx.sign base esign w integer rexponent eint
  | .complex _ _ ctx, w => explicit ctx.exactness = e ∧ RealText ctx.radix ctx.sign flo e w
  | .nanPayload _ payload quiet ctx, w =>
    explicit ctx.exactness = e ∧ Payload ctx.radix ctx.sign quiet w payload

/-- A number begins in front of the text `w` that was read of it and of the text left. -/
structure Within (flo : Flonums F) (string : List Char) (radix : Option Radix)
    (e : Option Exactness) (w : List Char) (s : State F) : Prop where
  reads : s.radix = readRadix string radix
  starts : NumberAt flo string radix e s.comp.place (w ++ s.input)
  word : Word flo e s w

inductive Read (flo : Flonums F) (string : List Char) (radix : Option Radix) : State F → Prop
  | marks {m input e r} : Marks m e r → string = m ++ input →
      readRadix string radix = State.radix (F := F) (.number input e r radix) →
      Read flo string radix (.number input e r radix)
  | within {e w s} : Within flo string radix e w s → Read flo string radix s

/-! ## Characters -/

theorem signOf_eq_some {char sign} : signOf char = some sign ↔ char = sign.char := by
  rw [signOf]
  by_cases hplus : char = '+'
  · subst hplus
    cases sign <;> decide
  · by_cases hminus : char = '-'
    · subst hminus
      cases sign <;> decide
    · rw [if_neg hplus, if_neg hminus]
      cases sign <;> simp [Sign.char, hplus, hminus]

theorem afterPattern_eaten {pattern input rest} (h : afterPattern pattern input = some rest) :
    ∃ v, input = v ++ rest ∧ afterPattern pattern v = some [] := by
  induction pattern generalizing input with
  | nil =>
    obtain rfl := Option.some.inj h
    exact ⟨[], rfl, rfl⟩
  | cons p pattern ih =>
    cases input with
    | nil => cases h
    | cons char input =>
      rw [afterPattern] at h
      split at h
      · rename_i hc
        obtain ⟨v, rfl, hv⟩ := ih h
        exact ⟨char :: v, rfl, by rw [afterPattern, if_pos hc]; exact hv⟩
      · cases h

/-! ## One step -/

/-- A step that goes on to `s'` keeps what is known of the text. -/
structure Follows (flo : Flonums F) (s s' : State F) : Prop where
  measure : s'.measure < s.measure
  read : ∀ string radix, Read flo string radix s → Read flo string radix s'

/-- The text ends behind the payload of a NaN that stands for an imaginary part. -/
def NanImaginary (flo : Flonums F) (s : State F) : Prop :=
  s.comp.place = .imag ∧ s.input = [] ∧ ∀ e w, Word flo e s w → e ≠ some .exact ∧
    ∃ sign quiet y, Payload s.radix sign quiet w y ∧ (quiet ∨ y ≠ 0) ∧ y < nanPayloadLimit

structure Ends (flo : Flonums F) (s : State F) (z : Option (Number F)) : Prop where
  input : z.isSome → s.input = [] ∨ ∃ c, isI c ∧ s.input = [c]
  recnum : ∀ re im, z = some (.recnum re im) →
    s.comp.place = .angle ∨ NanImaginary flo s ∨ ∃ c, isI c ∧ s.input = [c]

def Fails (flo : Flonums F) (s : State F) : Prop :=
  ∀ e w, Word flo e s w → Fault flo s.radix e s.comp.place (w ++ s.input)

/-- What the step of a state leads to. -/
def LeadsFrom (flo : Flonums F) (s : State F) : Result (Outcome F) → Prop
  | .error _ => Fails flo s
  | .ok (.goto s') => Follows flo s s'
  | .ok (.done z) => Ends flo s z

theorem State.rank_le (s : State F) : s.rank ≤ 3 := by
  cases s <;> simp [State.rank]

variable {s s' : State F} {ctx : Context F} (input : List Char) (integer : Nat)

theorem measure_of_eaten (c eaten) (hin : s.input = c :: eaten ++ s'.input) :
    s'.measure < s.measure := by
  have hrank := s'.rank_le
  rw [State.measure, State.measure, hin, List.cons_append, List.length_cons, List.length_append]
  omega

theorem Follows.of_word (eaten) (hs : s.inNumber) (hin : s.input = eaten ++ s'.input)
    (hcomp : s'.comp = s.comp) (hradix : s'.radix = s.radix) (hmeasure : s'.measure < s.measure)
    (hword : ∀ e w, Word flo e s w → Word flo e s' (w ++ eaten)) : Follows flo s s' := by
  refine ⟨hmeasure, fun string radix hread => ?_⟩
  cases hread with
  | marks => cases hs
  | within h =>
    refine .within ⟨hradix.trans h.reads, ?_, hword _ _ h.word⟩
    rw [hcomp, List.append_assoc, ← hin]
    exact h.starts

theorem Follows.of_char {c} (hs : s.inNumber) (hin : s.input = c :: s'.input)
    (hcomp : s'.comp = s.comp) (hradix : s'.radix = s.radix)
    (hword : ∀ e w, Word flo e s w → Word flo e s' (w ++ [c])) : Follows flo s s' :=
  Follows.of_word [c] hs hin hcomp hradix (measure_of_eaten c [] hin) hword

theorem Follows.of_same (hs : s.inNumber) (hin : s'.input = s.input) (hcomp : s'.comp = s.comp)
    (hradix : s'.radix = s.radix) (hrank : s'.rank < s.rank)
    (hword : ∀ e w, Word flo e s w → Word flo e s' w) : Follows flo s s' := by
  refine Follows.of_word [] hs hin.symm hcomp hradix ?_ fun e w => by
    rw [List.append_nil]
    exact hword e w
  rw [State.measure, State.measure, hin]
  omega

theorem leads_reject : LeadsFrom flo s reject :=
  ⟨fun h => absurd h Bool.false_ne_true, fun _ _ h => by cases h⟩

theorem leads_accept {v} (hin : s.input = []) (hnan : s.comp.place = .imag → NanImaginary flo s) :
    LeadsFrom flo s (s.comp.accept flo v) := by
  cases hc : s.comp with
  | real => exact ⟨fun _ => .inl hin, fun _ _ h => by cases h⟩
  | imag re => exact ⟨fun _ => .inl hin, fun _ _ _ => .inr (.inl (hnan (by rw [hc]; rfl)))⟩
  | angle m =>
    obtain ⟨z, hz⟩ := makePolar_ok flo m v
    rw [Comp.accept, hz]
    exact ⟨fun _ => .inl hin, fun _ _ _ => .inl (by rw [hc]; rfl)⟩

theorem leads_acceptEnd {v} (hin : s.input = [])
    (hv : ∀ e, v = .error e → s.comp.place ≠ .imag → Fails flo s) :
    LeadsFrom flo s (s.comp.acceptEnd flo v) := by
  by_cases himag : s.comp.place = .imag
  · cases hc : s.comp with
    | imag re => exact leads_reject
    | real => rw [hc] at himag; cases himag
    | angle m => rw [hc] at himag; cases himag
  · have hend : s.comp.acceptEnd flo v = v >>= s.comp.accept flo := by
      cases hc : s.comp with
      | imag re => exact absurd (by rw [hc]; rfl) himag
      | _ => rfl
    rw [hend]
    cases v with
    | error e => exact hv e rfl himag
    | ok v => exact leads_accept hin fun h => absurd h himag

theorem leads_acceptImaginary {v c} (hc : isI c) (hin : s.input = [c]) :
    LeadsFrom flo s (s.comp.acceptImaginary v) := by
  have hends {z : Option (Number F)} : Ends flo s z :=
    ⟨fun _ => .inr ⟨c, hc, hin⟩, fun _ _ _ => .inr (.inr ⟨c, hc, hin⟩)⟩
  cases s.comp with
  | real => exact hends
  | imag re => exact hends
  | angle m => exact leads_reject

theorem markedRadix_other {input radix} (h : ∀ char rest, input = '#' :: char :: rest → False) :
    markedRadix input radix = radix := by
  rw [markedRadix]
  exact h

theorem parseNumber_leads (exactness radix defaultRadix) :
    LeadsFrom flo (.number input exactness radix defaultRadix)
      (parseNumber (F := F) input exactness radix defaultRadix) := by
  have hmark {char : Char} {input : List Char} {exactness' : Option Exactness}
      {radix' : Option Radix} (hr : radix' = radix.or (radixMarker char))
      (hm : ∀ m, Marks m exactness radix → Marks (m ++ ['#', char]) exactness' radix') :
      Follows flo (.number ('#' :: char :: input) exactness radix defaultRadix)
        (.number input exactness' radix' defaultRadix) := by
    refine ⟨measure_of_eaten '#' [char] rfl, ?_⟩
    rintro string arg (⟨hmarks, rfl, hreads⟩ | h)
    · refine .marks (hm _ hmarks) (by rw [List.append_assoc]; rfl) (hreads.trans ?_)
      simp only [State.radix, markedRadix, hr]
    · exact h.word.elim
  fun_cases parseNumber (F := F) input exactness radix defaultRadix with
  | case1 | case2 | case4 | case6 | case7 => exact leads_reject
  | case3 char input r hr hnone =>
    obtain rfl := Option.isNone_iff_eq_none.mp hnone
    exact hmark (by rw [hr]; rfl) fun m hm => hm.radix hr
  | case5 char input e he hr hnone =>
    obtain rfl := Option.isNone_iff_eq_none.mp hnone
    exact hmark (by rw [hr, Option.or_none]) fun m hm => hm.exactness he
  | case8 input h1 h2 h3 =>
    refine ⟨Nat.lt_succ_self _, ?_⟩
    rintro string arg (⟨hmarks, hstring, hreads⟩ | h)
    · obtain ⟨c, rest, rfl⟩ := List.exists_cons_of_ne_nil h1
      have hc : c ≠ '#' := by
        rintro rfl
        cases rest with
        | nil => exact h2 rfl
        | cons c' rest => exact h3 c' rest rfl
      refine .within (e := exactness) (w := []) ⟨?_, .first hmarks hstring hc, hmarks.explicit, rfl⟩
      rw [hreads, State.radix, State.radix, markedRadix_other h3]
    · exact h.word.elim

theorem parseTopLevel_leads (exactness radix comp) :
    LeadsFrom flo (.topLevel input exactness radix comp)
      (parseTopLevel input exactness radix comp) := by
  fun_cases parseTopLevel input exactness radix comp with
  | case1 | case4 | case6 => exact leads_reject
  | case2 char input sign hsign =>
    refine Follows.of_char rfl rfl rfl rfl ?_
    rintro e w ⟨he, rfl⟩
    exact ⟨he, by rw [signOf_eq_some.mp hsign]; rfl⟩
  | case3 input hradix hsign =>
    refine Follows.of_char rfl rfl rfl rfl ?_
    rintro e w ⟨rfl, rfl⟩
    refine ⟨.of_explicit rfl, rfl, .inr ?_⟩
    rcases hradix with rfl | rfl | rfl
    · exact .inl rfl
    · exact .inl rfl
    · exact .inr rfl
  | case5 char input hsign hpoint digit hdigit =>
    refine Follows.of_char rfl rfl rfl rfl ?_
    rintro e w ⟨he, rfl⟩
    exact ⟨he, char, digit, hdigit, .start⟩

theorem Follows.of_name {first : Char → Bool} {pattern char input rest} (hs : s.inNumber)
    (hin : s.input = char :: input) (hrest : s'.input = rest)
    (h : (if first char then afterPattern pattern input else none) = some rest)
    (hcomp : s'.comp = s.comp) (hradix : s'.radix = s.radix)
    (hword : ∀ name, Named first pattern name →
      ∀ e w, Word flo e s w → Word flo e s' (w ++ name)) : Follows flo s s' := by
  obtain ⟨hfirst, hafter⟩ := Option.ite_none_right_eq_some.mp h
  obtain ⟨v, hv, hpattern⟩ := afterPattern_eaten hafter
  rw [← hrest] at hv
  have hin' : s.input = (char :: v) ++ s'.input := by rw [hin, hv, List.cons_append]
  exact Follows.of_word (char :: v) hs hin' hcomp hradix (measure_of_eaten char v hin')
    (hword _ ⟨char, v, rfl, hfirst, hpattern⟩)

theorem findLeader_leads (exactness radix sign comp) :
    LeadsFrom flo (.leader input exactness radix sign comp)
      (findLeader flo input exactness radix sign comp) := by
  fun_cases findLeader flo input exactness radix sign comp with
  | case1 | case4 | case9 => exact leads_reject
  | case2 char input digit hdigit =>
    refine Follows.of_char rfl rfl rfl rfl ?_
    rintro e w ⟨he, rfl⟩
    exact ⟨he, char, digit, hdigit, .start⟩
  | case3 input hdigit =>
    refine Follows.of_char rfl rfl rfl rfl ?_
    rintro e w ⟨rfl, rfl⟩
    exact ⟨.of_explicit rfl, rfl, .inl rfl⟩
  | case5 char input hdigit hpoint rest hrest hexact =>
    refine Follows.of_name rfl rfl rfl hrest rfl rfl ?_
    rintro name hname e w ⟨rfl, rfl⟩
    exact ⟨rfl, .infinity rfl (fun h => hexact (explicit_eq_exact.mp h)) hname⟩
  | case6 char input hdigit hpoint rest hrest hinf =>
    refine Follows.of_name rfl rfl rfl hrest rfl rfl ?_
    rintro name hname e w ⟨he, rfl⟩
    exact ⟨he, sign, name, rfl, hname, .start⟩
  | case7 char input hdigit hpoint rest hrest hnan hinf =>
    refine Follows.of_name rfl rfl rfl hrest rfl rfl ?_
    rintro name hname e w ⟨he, rfl⟩
    exact ⟨he, sign, name, rfl, hname, .start⟩
  | case8 char input hdigit hpoint hsnan hnan hinf hi =>
    obtain ⟨hi, rfl⟩ := hi
    exact leads_acceptImaginary (s := .leader [char] exactness radix sign comp) hi rfl

theorem parseComplex_leads (real ctx) :
    LeadsFrom flo (.complex input real ctx) (parseComplex flo input real ctx) := by
  -- the number is the first one, and its text is known
  have hreal {input : List Char} {string : List Char} {radix : Option Radix}
      (hread : Read flo string radix (.complex input real ctx)) (hcomp : ctx.comp = .real) :
      ctx.radix = readRadix string radix ∧ ∃ w,
        NumberAt flo string radix (explicit ctx.exactness) .real (w ++ input) ∧
        RealText (readRadix string radix) ctx.sign flo (explicit ctx.exactness) w := by
    obtain - | @⟨e, w, -, hradix, hstarts, rfl, hword⟩ := hread
    rw [← show ctx.radix = _ from hradix]
    refine ⟨rfl, w, ?_, hword⟩
    rw [show State.comp (.complex input real ctx) = .real from hcomp] at hstarts
    exact hstarts
  fun_cases parseComplex flo input real ctx with
  | case1 => exact leads_acceptEnd (s := .complex [] real ctx) rfl nofun
  | case2 char input hi hend =>
    obtain ⟨hsign, rfl⟩ := hend
    exact leads_acceptImaginary (s := .complex [char] real ctx) hi rfl
  | case3 | case6 | case7 => exact leads_reject
  | case4 char input exactness hi hcomp hsign =>
    refine ⟨Nat.lt_succ_self _, fun string radix hread => ?_⟩
    obtain ⟨hradix, w, hstarts, hw⟩ := hreal hread hcomp
    obtain ⟨s, hs⟩ := Option.isSome_iff_exists.mp hsign
    obtain rfl := signOf_eq_some.mp hs
    exact .within (w := []) ⟨hradix, .imag hstarts hw, explicit_explicit _, rfl⟩
  | case5 input exactness hcomp hi hsign =>
    refine ⟨measure_of_eaten '@' [] rfl, ?_⟩
    intro string radix hread
    obtain ⟨hradix, w, hstarts, hw⟩ := hreal hread hcomp
    exact .within (w := []) ⟨hradix, .angle hstarts hw, explicit_explicit _, rfl⟩

/-- The continuations of `parse-digits` are called from its two loops. -/
structure AtDigits (flo : Flonums F) (s : State F) (input : List Char) (integer : Nat)
    (sharp : Bool) (goal : Goal) (ctx : Context F) : Prop where
  inNumber : s.inNumber
  text : s.input = input
  comp : s.comp = ctx.comp
  radix : s.radix = ctx.radix
  rank : s.rank = 3
  ends : (sharp = false → DigitsEnd input ctx.radix) ∧ input.head? ≠ some '#'
  word : ∀ e w, Word flo e s w → explicit ctx.exactness = e ∧
    (sharp → Implied e ctx.exactness) ∧ goal.Word ctx sharp input integer w

theorem afterInteger_leads {input integer sharp}
    (hs : AtDigits flo s input integer sharp .integer ctx) :
    LeadsFrom flo s (afterInteger flo input integer sharp ctx) := by
  have hchar {c : Char} {s' : State F} (hin : input = c :: s'.input)
      (hcomp : s'.comp = ctx.comp) (hradix : s'.radix = ctx.radix)
      (hword : ∀ e w, explicit ctx.exactness = e → (sharp → Implied e ctx.exactness) →
        Integer ctx.radix ctx.sign sharp w integer → Word flo e s' (w ++ [c])) :
      Follows flo s s' :=
    Follows.of_char hs.inNumber (hs.text.trans hin) (hcomp.trans hs.comp.symm)
      (hradix.trans hs.radix.symm) fun e w hw =>
        hword e w (hs.word e w hw).1 (hs.word e w hw).2.1 (hs.word e w hw).2.2
  fun_cases afterInteger flo input integer sharp ctx with
  | case1 =>
    rw [← hs.comp]
    exact leads_acceptEnd hs.text nofun
  | case2 rest =>
    refine hchar rfl rfl rfl fun e w he _ hw => ⟨he, _, w, integer, hw, .start, ?_⟩
    rw [List.append_assoc]
    rfl
  | case3 rest hsharp hslash =>
    exact hchar rfl rfl rfl fun e w _ he hw => ⟨he hsharp, by rw [← hsharp]; exact .integer hw⟩
  | case4 implicit rest hsharp hslash =>
    refine hchar rfl rfl rfl fun e w he _ hw => ⟨.of_explicit he, ?_⟩
    rw [Bool.eq_false_iff.mpr hsharp] at hw
    exact .integer hw
  | case5 implicit char rest hslash hpoint hmark hradix =>
    exact hchar rfl rfl rfl fun e w he _ hw =>
      ⟨.of_explicit he, .integer hw (.inl ⟨rfl, hradix, hmark⟩)⟩
  | case6 => exact leads_reject
  | case7 implicit char rest hslash hpoint hmark hpower =>
    exact hchar rfl rfl rfl fun e w he _ hw =>
      ⟨.of_explicit he, .integer hw (.inr ⟨rfl, hpower⟩)⟩
  | case8 char rest hslash hpoint hmark hpower =>
    refine Follows.of_same hs.inNumber hs.text.symm hs.comp.symm hs.radix.symm ?_ fun e w hw => ?_
    · rw [hs.rank]
      exact Nat.lt_succ_self 2
    · exact ⟨(hs.word e w hw).1, .integer (hs.word e w hw).2.2⟩

theorem afterDenominator_leads {input start numerator denominator sharp}
    (hs : AtDigits flo s input denominator sharp (.denominator numerator start) ctx) :
    LeadsFrom flo s (afterDenominator flo input numerator denominator start ctx) := by
  fun_cases afterDenominator flo input numerator denominator start ctx with
  | case1 hlt =>
    cases hq : finishRational flo numerator denominator ctx.exactness ctx.sign with
    | error err =>
      have hzero : denominator = 0 := by
        by_contra hne
        obtain ⟨q, hq'⟩ := (finishRational_ok_iff flo numerator denominator ctx.exactness
          ctx.sign).mpr hne
        rw [hq'] at hq
        cases hq
      intro e w hw
      obtain ⟨-, -, b, a, n, ha, hplaces, hstart⟩ := hs.word e w hw
      rw [hs.text, hs.radix]
      subst hzero
      refine .ratio ha hplaces ?_ hs.ends.1 hs.ends.2
      rintro rfl
      rw [List.append_assoc] at hstart
      obtain rfl := (List.cons.inj (List.append_cancel_left hstart)).2
      exact absurd hlt (Nat.lt_irrefl _)
    | ok q =>
      refine Follows.of_same hs.inNumber hs.text.symm hs.comp.symm hs.radix.symm ?_ fun e w hw => ?_
      · rw [hs.rank]
        exact Nat.lt_succ_self 2
      · obtain ⟨he, -, b, a, n, ha, hplaces, -⟩ := hs.word e w hw
        exact ⟨he, .ratio ha hplaces ((finishRational_ok_iff _ _ _ _ _).mp ⟨q, hq⟩)⟩
  | case2 => exact leads_reject

theorem continue_leads {input goal integer sharp}
    (hs : AtDigits flo s input integer sharp goal ctx) :
    LeadsFrom flo s (goal.continue flo input integer sharp ctx) := by
  cases goal with
  | integer => exact afterInteger_leads hs
  | denominator numerator start => exact afterDenominator_leads hs

theorem Integer.digit {radix sign w n d char} (h : Integer radix sign false w n)
    (hd : charToDigit char radix = some d) :
    Integer radix sign false (w ++ [char]) (n * radix.val + d) := by
  obtain ⟨first, d₀, hfirst, hplaces⟩ := h
  exact ⟨first, d₀, hfirst, hplaces.digit hd⟩

theorem Integer.sharp {radix sign b w n} (h : Integer radix sign b w n) :
    Integer radix sign true (w ++ ['#']) (n * radix.val) := by
  obtain ⟨first, d₀, hfirst, hplaces⟩ := h
  exact ⟨first, d₀, hfirst, hplaces.sharp⟩

theorem Goal.Word.digit {char rest w n d} {goal : Goal}
    (h : goal.Word ctx false (char :: rest) n w) (hd : charToDigit char ctx.radix = some d) :
    goal.Word ctx false rest (n * ctx.radix.val + d) (w ++ [char]) := by
  cases goal with
  | integer => exact Integer.digit h hd
  | denominator numerator start =>
    obtain ⟨b, a, n, ha, hplaces, hstart⟩ := h
    exact ⟨b, a, n, ha, hplaces.digit hd, by rw [List.append_assoc]; exact hstart⟩

theorem Goal.Word.sharp {b rest w n} {goal : Goal} (h : goal.Word ctx b ('#' :: rest) n w) :
    goal.Word ctx true rest (n * ctx.radix.val) (w ++ ['#']) := by
  cases goal with
  | integer => exact Integer.sharp h
  | denominator numerator start =>
    obtain ⟨b, a, n, ha, hplaces, hstart⟩ := h
    exact ⟨b, a, n, ha, hplaces.sharp, by rw [List.append_assoc]; exact hstart⟩

theorem parseDigits_leads (goal ctx) :
    LeadsFrom flo (.digits input integer goal ctx) (parseDigits flo input integer goal ctx) := by
  have hat {input : List Char} (hends : DigitsEnd input ctx.radix ∧ input.head? ≠ some '#') :
      AtDigits flo (.digits input integer goal ctx) input integer false goal ctx :=
    ⟨rfl, rfl, rfl, rfl, rfl, ⟨fun _ => hends.1, hends.2⟩, fun e w h => ⟨h.1, by simp, h.2⟩⟩
  fun_cases parseDigits flo input integer goal ctx with
  | case1 => exact continue_leads (hat (by simp [DigitsEnd]))
  | case2 char rest digit hdigit =>
    exact Follows.of_char rfl rfl rfl rfl fun e w h => ⟨h.1, h.2.digit hdigit⟩
  | case3 rest hdigit =>
    exact Follows.of_char rfl rfl rfl rfl fun e w h => ⟨h.1, h.2.sharp⟩
  | case4 char rest hdigit hsharp =>
    exact continue_leads (hat (by simp [DigitsEnd, hdigit, hsharp]))

theorem parseSharps_leads (goal ctx) :
    LeadsFrom flo (.sharps input integer goal ctx) (parseSharps flo input integer goal ctx) := by
  fun_cases parseSharps flo input integer goal ctx with
  | case1 rest =>
    exact Follows.of_char rfl rfl rfl rfl fun e w h => ⟨h.1, h.2.sharp⟩
  | case2 input hsharp =>
    have hhead : input.head? ≠ some '#' := by
      cases input with
      | nil => simp
      | cons c rest =>
        rintro hc
        exact hsharp rest (by rw [Option.some.inj hc])
    refine continue_leads ⟨rfl, rfl, rfl, rfl, rfl, ⟨nofun, hhead⟩, ?_⟩
    rintro e w ⟨rfl, hw⟩
    exact ⟨explicit_orImplicit _, fun _ => .of_explicit rfl, hw⟩

theorem parseDotted1_leads (ctx) : LeadsFrom flo (.dotted1 input ctx) (parseDotted1 input ctx) := by
  fun_cases parseDotted1 input ctx with
  | case1 | case3 => exact leads_reject
  | case2 char rest digit hdigit =>
    refine Follows.of_char rfl rfl rfl rfl ?_
    rintro e w ⟨he, rfl, hradix⟩
    refine ⟨he, ?_⟩
    rw [List.append_assoc]
    exact .leading hradix hdigit

theorem parseDotted5_leads {input integer rexponent base bexponent} (hs : s.inNumber)
    (hin : s.input = input) (hcomp : s.comp = ctx.comp) (hradix : s.radix = ctx.radix)
    (hrank : s.rank = 3) (hword : ∀ e w, Word flo e s w → Implied e ctx.exactness ∧
      (¬Unscalable flo integer rexponent (orImplicit e) ctx.radix base bexponent →
        RealText ctx.radix ctx.sign flo e w) ∧
      (Unscalable flo integer rexponent (orImplicit e) ctx.radix base bexponent →
        Fault flo ctx.radix e s.comp.place (w ++ s.input))) :
    LeadsFrom flo s (parseDotted5 flo input integer rexponent ctx base bexponent) := by
  rw [parseDotted5]
  cases hx : finishReal flo integer rexponent ctx.exactness ctx.radix ctx.sign base bexponent with
  | error err =>
    intro e w h
    obtain ⟨⟨-, himplicit⟩, -, hfault⟩ := hword e w h
    rw [hradix]
    exact hfault (himplicit ▸ finishReal_error hx)
  | ok x =>
    refine Follows.of_same hs hin.symm hcomp.symm hradix.symm ?_ fun e w h => ?_
    · rw [hrank]
      exact Nat.lt_succ_self 2
    · obtain ⟨⟨he, himplicit⟩, hw, -⟩ := hword e w h
      have hscaled := finishReal_ok_iff.mp ⟨x, hx⟩
      rw [himplicit] at hscaled
      exact ⟨he, hw hscaled⟩

theorem parseDotted4_leads {char rest integer rexponent} (hs : s.inNumber)
    (hin : s.input = char :: rest) (hcomp : s.comp = ctx.comp) (hradix : s.radix = ctx.radix)
    (hrank : s.rank = 3) (hword : ∀ e w, Word flo e s w → Implied e ctx.exactness ∧
      ∃ sharp, Point ctx.radix ctx.sign sharp w integer rexponent) :
    LeadsFrom flo s (parseDotted4 flo char rest integer rexponent ctx) := by
  fun_cases parseDotted4 flo char rest integer rexponent ctx with
  | case1 hmark hten =>
    refine Follows.of_char hs hin hcomp.symm hradix.symm fun e w h => ?_
    obtain ⟨he, _, hw⟩ := hword e w h
    exact ⟨he, .point hw (.inl ⟨rfl, hten, hmark⟩) fun h => by cases h⟩
  | case2 | case4 => exact leads_reject
  | case3 hmark hpower hsixteen =>
    refine Follows.of_char hs hin hcomp.symm hradix.symm fun e w h => ?_
    obtain ⟨he, _, hw⟩ := hword e w h
    exact ⟨he, .point hw (.inr ⟨rfl, hpower⟩) fun _ => hsixteen⟩
  | case5 hmark hpower =>
    refine parseDotted5_leads hs hin hcomp hradix hrank fun e w h => ?_
    obtain ⟨he, _, hw⟩ := hword e w h
    exact ⟨he, fun _ => .point hw, fun h => absurd h not_unscalable_ten⟩

theorem parseDotted2_leads (rexponent ctx) :
    LeadsFrom flo (.dotted2 input integer rexponent ctx)
      (parseDotted2 flo input integer rexponent ctx) := by
  fun_cases parseDotted2 flo input integer rexponent ctx with
  | case1 =>
    refine leads_acceptEnd (s := .dotted2 [] integer rexponent ctx) rfl fun e he => ?_
    exact absurd (finishReal_error he) not_unscalable_ten
  | case2 char rest digit hdigit =>
    exact Follows.of_char rfl rfl rfl rfl fun e w h => ⟨h.1, h.2.digit hdigit⟩
  | case3 rest hdigit =>
    exact Follows.of_char rfl rfl rfl rfl fun e w h => ⟨h.1, h.2.sharp⟩
  | case4 char rest hdigit hsharp =>
    exact parseDotted4_leads rfl rfl rfl rfl rfl fun e w h => ⟨h.1, _, h.2⟩

theorem parseDotted3_leads (rexponent ctx) :
    LeadsFrom flo (.dotted3 input integer rexponent ctx)
      (parseDotted3 flo input integer rexponent ctx) := by
  fun_cases parseDotted3 flo input integer rexponent ctx with
  | case1 =>
    refine leads_acceptEnd (s := .dotted3 [] integer rexponent ctx) rfl ?_
    rintro err herr hplace e w ⟨⟨-, himplicit⟩, hw⟩
    rw [State.input, List.append_nil]
    exact .sharps hw hplace (himplicit ▸ finishReal_error herr)
  | case2 rest =>
    exact Follows.of_char rfl rfl rfl rfl fun e w h => ⟨h.1, h.2.sharp⟩
  | case3 char rest hsharp =>
    exact parseDotted4_leads rfl rfl rfl rfl rfl fun e w h => ⟨h.1, _, h.2⟩

theorem parseExponent1_leads (rexponent base ctx) :
    LeadsFrom flo (.exponent1 input integer rexponent base ctx)
      (parseExponent1 input integer rexponent base ctx) := by
  have hdigits {start : List Char} {esign : Option Sign} (hin : input = signText esign ++ start) :
      LeadsFrom flo (.exponent1 input integer rexponent base ctx)
        (getDigits start esign integer rexponent base ctx) := by
    fun_cases getDigits start esign integer rexponent base ctx with
    | case1 | case3 => exact leads_reject
    | case2 char rest digit hdigit =>
      refine Follows.of_word (signText esign ++ [char]) rfl ?_ rfl rfl ?_ ?_
      · rw [State.input, hin, List.append_assoc]
        rfl
      · simp only [State.measure, State.input, State.rank, hin, List.length_append,
          List.length_cons]
        omega
      · rintro e w ⟨he, hw⟩
        refine ⟨he, w, char, digit, hw, hdigit, ?_⟩
        rw [← List.append_assoc]
        exact .start
  fun_cases parseExponent1 input integer rexponent base ctx with
  | case1 => exact leads_reject
  | case2 char rest esign hsign => exact hdigits (by rw [signOf_eq_some.mp hsign]; rfl)
  | case3 char rest hsign => exact hdigits rfl

theorem Exponent.digit {radix base sign esign w n y d x char}
    (h : Exponent radix sign base esign w n x y) (hd : charToDigit char .ten = some d) :
    Exponent radix sign base esign (w ++ [char]) n x (y * 10 + d) := by
  obtain ⟨m, first, d₀, hm, hfirst, hplaces⟩ := h
  exact ⟨m, first, d₀, hm, hfirst, hplaces.digit hd⟩

theorem parseExponentDigits_leads (eint esign integer rexponent base ctx) :
    LeadsFrom flo (.exponentDigits input eint esign integer rexponent base ctx)
      (parseExponentDigits flo input eint esign integer rexponent base ctx) := by
  fun_cases parseExponentDigits flo input eint esign integer rexponent base ctx with
  | case1 bexponent =>
    refine leads_acceptEnd (s := .exponentDigits [] eint esign integer rexponent base ctx) rfl ?_
    rintro err herr hplace e w ⟨⟨-, himplicit⟩, hw⟩
    exact .exponent hw (by simp [DigitsEnd, State.input]) (fun _ => hplace)
      (himplicit ▸ finishReal_error herr)
  | case2 char rest digit hdigit =>
    exact Follows.of_char rfl rfl rfl rfl fun e w h => ⟨h.1, h.2.digit hdigit⟩
  | case3 bexponent char rest hdigit =>
    refine parseDotted5_leads rfl rfl rfl rfl rfl fun e w h => ⟨h.1, .exponent h.2, fun hs => ?_⟩
    exact .exponent h.2 (by simpa [DigitsEnd, State.input] using hdigit) nofun hs

theorem Payload.digit {radix sign quiet w y d char} (h : Payload radix sign quiet w y)
    (hd : charToDigit char radix = some d) :
    Payload radix sign quiet (w ++ [char]) (y * radix.val + d) := by
  obtain ⟨s, name, hs, hname, hplaces⟩ := h
  exact ⟨s, name, hs, hname, hplaces.digit hd⟩

theorem parseNanPayload_leads (payload quiet ctx) :
    LeadsFrom flo (.nanPayload input payload quiet ctx)
      (parseNanPayload flo input payload quiet ctx) := by
  have hexact {e : Option Exactness} (hgood : (quiet ∨ payload ≠ 0) ∧ ctx.exactness ≠ some .exact)
      (he : explicit ctx.exactness = e) : e ≠ some .exact := by
    rw [← he]
    exact fun h => hgood.2 (explicit_eq_exact.mp h)
  have hfails {input : List Char}
      (hgood : (quiet ∨ payload ≠ 0) ∧ ctx.exactness ≠ some .exact)
      (hle : nanPayloadLimit ≤ payload) (hend : DigitsEnd input ctx.radix) :
      Fails flo (.nanPayload input payload quiet ctx) :=
    fun e w hw => .payload (hexact hgood hw.1) hw.2 hend hle
  fun_cases parseNanPayload flo input payload quiet ctx with
  | case1 =>
    by_cases hgood : (quiet ∨ payload ≠ 0) ∧ ctx.exactness ≠ some .exact
    · rcases Nat.lt_or_ge payload nanPayloadLimit with hlt | hle
      · rw [finishNan_some hgood hlt, ok_bind]
        refine leads_accept (s := .nanPayload [] payload quiet ctx) rfl fun himag => ?_
        exact ⟨himag, rfl, fun e w hw => ⟨hexact hgood hw.1, _, _, _, hw.2, hgood.1, hlt⟩⟩
      · rw [finishNan_error hgood hle]
        exact hfails hgood hle (by simp [DigitsEnd])
    · rw [finishNan_none hgood]
      exact leads_reject
  | case2 char rest digit hdigit =>
    exact Follows.of_char rfl rfl rfl rfl fun e w h => ⟨h.1, h.2.digit hdigit⟩
  | case3 char rest hdigit =>
    by_cases hgood : (quiet ∨ payload ≠ 0) ∧ ctx.exactness ≠ some .exact
    · rcases Nat.lt_or_ge payload nanPayloadLimit with hlt | hle
      · rw [finishNan_some hgood hlt]
        exact Follows.of_same rfl rfl rfl rfl (Nat.lt_succ_self 2) fun e w hw =>
          ⟨hw.1, .nan (hexact hgood hw.1) hw.2 hgood.1 hlt⟩
      · rw [finishNan_error hgood hle]
        exact hfails hgood hle (by simpa [DigitsEnd] using hdigit)
    · rw [finishNan_none hgood]
      exact leads_reject

theorem step_leads (flo : Flonums F) (s : State F) : LeadsFrom flo s (step flo s) := by
  cases s with
  | number input exactness radix defaultRadix =>
    exact parseNumber_leads input exactness radix defaultRadix
  | topLevel input exactness radix comp => exact parseTopLevel_leads input exactness radix comp
  | leader input exactness radix sign comp =>
    exact findLeader_leads input exactness radix sign comp
  | digits input integer goal ctx => exact parseDigits_leads input integer goal ctx
  | sharps input integer goal ctx => exact parseSharps_leads input integer goal ctx
  | dotted1 input ctx => exact parseDotted1_leads input ctx
  | dotted2 input integer rexponent ctx => exact parseDotted2_leads input integer rexponent ctx
  | dotted3 input integer rexponent ctx => exact parseDotted3_leads input integer rexponent ctx
  | exponent1 input integer rexponent base ctx =>
    exact parseExponent1_leads input integer rexponent base ctx
  | exponentDigits input eint esign integer rexponent base ctx =>
    exact parseExponentDigits_leads input eint esign integer rexponent base ctx
  | complex input real ctx => exact parseComplex_leads input real ctx
  | nanPayload input payload quiet ctx => exact parseNanPayload_leads input payload quiet ctx

theorem step_follows (h : step flo s = .ok (.goto s')) : Follows flo s s' := by
  have hleads := step_leads flo s
  rwa [h] at hleads

theorem step_ends {z} (h : step flo s = .ok (.done z)) : Ends flo s z := by
  have hleads := step_leads flo s
  rwa [h] at hleads

theorem step_fails {e} (h : step flo s = .error e) : Fails flo s := by
  have hleads := step_leads flo s
  rwa [h] at hleads

theorem step_measure (s s') (h : step flo s = .ok (.goto s')) :
    s'.measure < s.measure := (step_follows h).measure

end MitScheme.Runtime.NumberParser
