import MitScheme.Runtime.NumberParseSteps

/-! # The parser on a text of the grammar

On a text that begins with a word of the grammar the parser arrives behind the word
with its value. -/

namespace MitScheme.Runtime.NumberParser
open Arith Lib.Outcome
open Lib.Halting (Next Reaches)
open List (append_assoc cons_append nil_append)

variable {F : Type} {flo : Flonums F}

/-! ## Characters -/

theorem charToDigit_none (char radix)
    (hc : char ∈ ['+', '-', '.', '#', '/', '@', 'p', 'P', 'i', 'I', 'n', 'N', 's', 'S', 'ſ']) :
    charToDigit char radix = none := by
  have hall : ['+', '-', '.', '#', '/', '@', 'p', 'P', 'i', 'I', 'n', 'N', 's', 'S', 'ſ'].all
      fun c => charToDigit c radix = none := by
    cases radix <;> decide
  exact of_decide_eq_true (List.all_eq_true.mp hall char hc)

theorem digit_ne {char c radix d} (h : charToDigit char radix = some d)
    (hc : c ∈ ['+', '-', '.', '#', '/', '@', 'p', 'P', 'i', 'I', 'n', 'N', 's', 'S', 'ſ']) :
    char ≠ c := by
  rintro rfl
  rw [charToDigit_none _ radix hc] at h
  cases h

theorem signOf_digit {char radix d} (h : charToDigit char radix = some d) : signOf char = none := by
  rw [signOf, if_neg (digit_ne h (by decide)), if_neg (digit_ne h (by decide))]

theorem signOf_char (sign) : signOf sign.char = some sign := signOf_eq_some.mpr rfl

theorem exponentMark_char {radix base char} (h : ExponentMark radix base char) :
    charToDigit char radix = none ∧ char ≠ '#' ∧ char ≠ '/' ∧ char ≠ '.' := by
  rcases h with ⟨-, rfl, hmark⟩ | ⟨-, hpower⟩
  · have hall : ∀ c ∈ ['e', 'E', 's', 'S', 'f', 'F', 'd', 'D', 'l', 'L'],
        charToDigit c .ten = none ∧ c ≠ '#' ∧ c ≠ '/' ∧ c ≠ '.' := by
      simp only [List.forall_mem_cons]
      refine ⟨?_, ?_, ?_, ?_, ?_, ?_, ?_, ?_, ?_, ?_, by simp⟩ <;> exact ⟨rfl, by decide⟩
    exact hall char (of_decide_eq_true hmark)
  · rcases of_decide_eq_true hpower with rfl | rfl <;>
      exact ⟨charToDigit_none _ radix (by decide), by decide⟩

theorem not_exponentMarker_of_power {char} (h : powerMarker char) : ¬exponentMarker char := by
  rcases of_decide_eq_true h with rfl | rfl <;> decide

theorem afterPattern_append {pattern v} (h : afterPattern pattern v = some []) (t) :
    afterPattern pattern (v ++ t) = some t := by
  induction pattern generalizing v with
  | nil =>
    obtain rfl := Option.some.inj h
    rfl
  | cons p pattern ih =>
    cases v with
    | nil => cases h
    | cons char v =>
      rw [afterPattern] at h
      split at h
      · rename_i hc
        rw [cons_append, afterPattern, if_pos hc]
        exact ih h
      · cases h

/-! ## Words -/

/-- A character that is neither `@` nor the mark of a power of two. -/
def Plain (char : Char) : Prop := char ≠ '@' ∧ ¬powerMarker char

instance : DecidablePred Plain := fun _ => instDecidableAnd

theorem plain_of_digit {char radix d} (h : charToDigit char radix = some d) :
    Plain char ∧ ¬isI char := by
  simp only [Plain, powerMarker, isI, decide_eq_true_eq, not_or]
  exact ⟨⟨digit_ne h (by decide), digit_ne h (by decide), digit_ne h (by decide)⟩,
    digit_ne h (by decide), digit_ne h (by decide)⟩

theorem Places.eaten {radix start w n₀ n b} (h : Places radix start n₀ b w n) :
    ∃ v, w = start ++ v ∧ (v = [] → n = n₀) ∧ ∀ c ∈ v, Plain c ∧ ¬isI c := by
  induction h with
  | start => exact ⟨[], by simp, fun _ => rfl, by simp⟩
  | digit _ hd ih =>
    obtain ⟨v, rfl, -, hv⟩ := ih
    refine ⟨v ++ [_], append_assoc .., by simp, ?_⟩
    exact List.forall_mem_append.mpr ⟨hv, List.forall_mem_singleton.mpr (plain_of_digit hd)⟩
  | sharp _ ih =>
    obtain ⟨v, rfl, -, hv⟩ := ih
    refine ⟨v ++ ['#'], append_assoc .., by simp, ?_⟩
    exact List.forall_mem_append.mpr ⟨hv, List.forall_mem_singleton.mpr (by decide)⟩

theorem Places.value_of_start {radix start w n₀ n b} (h : Places radix start n₀ b w n)
    (hw : w = start) : n = n₀ := by
  obtain ⟨v, rfl, hvalue, -⟩ := h.eaten
  exact hvalue (List.append_right_eq_self.mp hw)

/-- The state in front of a number of which the sign was read. -/
def State.unsigned (e : Option Exactness) (r : Option Radix) (comp : Comp F) (text : List Char) :
    Option Sign → State F
  | none => .topLevel text e r comp
  | some sign => .leader text e (r.getD .ten) sign comp

def State.places (b : Bool) (input : List Char) (n : Nat) (goal : Goal) (ctx : Context F) :
    State F :=
  match b with
  | false => .digits input n goal ctx
  | true => .sharps input n goal ctx

def State.point (b : Bool) (input : List Char) (n : Nat) (x : Int) (ctx : Context F) : State F :=
  match b with
  | false => .dotted2 input n x ctx
  | true => .dotted3 input n x ctx

theorem Places.reaches {radix start w n₀ n b S T} {L : Bool → List Char → Nat → State F}
    (h : Places radix start n₀ b w n) (hdigit : ∀ char d t n, charToDigit char radix = some d →
      step flo (L false (char :: t) n) = .ok (.goto (L false t (n * radix.val + d))))
    (hsharp : b = true → ∀ b t n,
      step flo (L b ('#' :: t) n) = .ok (.goto (L true t (n * radix.val))))
    (hstart : ∀ t, T = start ++ t → Reaches (step flo) S (L false t n₀)) :
    ∀ t, T = w ++ t → Reaches (step flo) S (L b t n) := by
  induction h with
  | start => exact hstart
  | digit _ hd ih =>
    intro t ht
    rw [append_assoc] at ht
    exact (ih nofun _ ht).next (hdigit _ _ _ _ hd)
  | sharp _ ih =>
    intro t ht
    rw [append_assoc] at ht
    exact (ih (fun _ => hsharp rfl) _ ht).next (hsharp rfl _ _ _)

theorem Places.reaches_places (goal ctx) {start w n₀ n b S T}
    (h : Places ctx.radix start n₀ b w n)
    (hstart : ∀ t, T = start ++ t → Reaches (step flo) S (.digits t n₀ goal ctx)) :
    ∀ t, T = w ++ t → Reaches (step flo) S (State.places b t n goal ctx) := by
  refine h.reaches (L := fun b t n => State.places b t n goal ctx) ?_ (fun _ b t n => ?_) hstart
  · intro char d t n hd
    simp only [State.places, step, parseDigits, hd]
  · cases b
    · simp only [State.places, step, parseDigits, charToDigit_none '#' ctx.radix (by decide),
        if_true]
    · rfl

/-- What the continuation behind the digits gets. -/
def Context.behind (ctx : Context F) (b : Bool) : Context F :=
  if b then { ctx with exactness := orImplicit ctx.exactness } else ctx

theorem Context.behind_radix (ctx : Context F) (b) : (ctx.behind b).radix = ctx.radix := by
  cases b <;> rfl

theorem Context.behind_implicit (ctx : Context F) (b) :
    (⟨orImplicit (ctx.behind b).exactness, ctx.radix, (ctx.behind b).sign, (ctx.behind b).comp⟩ :
      Context F) = ⟨orImplicit ctx.exactness, ctx.radix, ctx.sign, ctx.comp⟩ := by
  obtain ⟨e, r, sign, comp⟩ := ctx
  cases b
  · rfl
  · rcases e with _ | _ | _ | _ <;> rfl

theorem step_places {b t n goal ctx} (hdigit : b = false → DigitsEnd t ctx.radix)
    (hsharp : t.head? ≠ some '#') :
    step flo (State.places b t n goal ctx) = goal.continue flo t n b (ctx.behind b) := by
  cases b with
  | false =>
    cases t with
    | nil => rfl
    | cons char rest =>
      have hnone : charToDigit char ctx.radix = none := hdigit rfl char rfl
      have hne : char ≠ '#' := fun h => hsharp (by rw [h]; rfl)
      simp only [State.places, step, parseDigits, hnone, if_neg hne]
      rfl
  | true =>
    simp only [State.places, step]
    rw [parseSharps]
    · rfl
    · rintro rest rfl
      exact hsharp rfl

section
variable {e : Option Exactness} {r : Option Radix} {comp : Comp F} {T : List Char}
  {sign : Option Sign} {w : List Char} {n : Nat}

theorem reaches_unsigned (sign t) : Reaches (step flo)
    (.topLevel (signText sign ++ t) e r comp) (State.unsigned e r comp t sign) := by
  cases sign with
  | none => exact Reaches.refl _
  | some sign =>
    refine (Reaches.refl _).next ?_
    show parseTopLevel (sign.char :: t) e r comp = _
    rw [parseTopLevel, signOf_char]
    rfl

theorem step_unsigned_digit {char d t} (hd : charToDigit char (r.getD .ten) = some d) :
    step flo (State.unsigned e r comp (char :: t) sign) =
      .ok (.goto (.digits t d .integer ⟨e, r.getD .ten, sign, comp⟩)) := by
  cases sign with
  | none =>
    simp only [State.unsigned, step, parseTopLevel, signOf_digit hd,
      if_neg (digit_ne hd (c := '.') (by decide)), hd]
  | some sign => simp only [State.unsigned, step, findLeader, hd]

theorem step_unsigned_point {t} (hr : sign.isSome ∨ r.getD .ten = .ten ∨ r.getD .ten = .sixteen) :
    step flo (State.unsigned e r comp ('.' :: t) sign) =
      .ok (.goto (.dotted1 t ⟨orImplicit e, r.getD .ten, sign, comp⟩)) := by
  cases sign with
  | none =>
    have hr' : r = none ∨ r = some .ten ∨ r = some .sixteen := by
      rcases r with _ | r
      · exact .inl rfl
      · exact .inr ((hr.resolve_left nofun).imp (congrArg some) (congrArg some))
    show parseTopLevel ('.' :: t) e r comp = _
    rw [parseTopLevel]
    exact if_pos hr'
  | some sign =>
    simp only [State.unsigned, step, findLeader,
      charToDigit_none '.' (r.getD .ten) (by decide), if_true]

theorem Integer.reaches {b} (h : Integer (r.getD .ten) sign b w n) (t) (ht : T = w ++ t) :
    Reaches (step flo) (.topLevel T e r comp)
      (State.places b t n .integer ⟨e, r.getD .ten, sign, comp⟩) := by
  obtain ⟨char, d, hd, hplaces⟩ := h
  refine Places.reaches_places .integer ⟨e, r.getD .ten, sign, comp⟩ hplaces ?_ t ht
  rintro t rfl
  rw [append_assoc]
  exact (reaches_unsigned sign _).next (step_unsigned_digit hd)

theorem Point.reaches {b x} (h : Point (r.getD .ten) sign b w n x) :
    ∀ t, T = w ++ t → Reaches (step flo) (.topLevel T e r comp)
      (State.point b t n x ⟨orImplicit e, r.getD .ten, sign, comp⟩) := by
  induction h with
  | @integer b w n hw =>
    intro t ht
    rw [append_assoc] at ht
    refine (Integer.reaches hw _ ht).next ?_
    rw [step_places (fun _ => by simp [DigitsEnd, charToDigit_none]) (by simp)]
    cases b <;> rfl
  | leading hradix hd =>
    rintro t rfl
    rw [append_assoc]
    refine ((reaches_unsigned sign _).next (step_unsigned_point hradix)).next ?_
    show parseDotted1 (_ :: t) _ = _
    simp only [parseDotted1, hd]
    rfl
  | digit _ hd ih =>
    intro t ht
    rw [append_assoc] at ht
    refine (ih _ ht).next ?_
    simp only [State.point, step, parseDotted2, cons_append, nil_append, hd]
  | @sharp b w n x _ ih =>
    intro t ht
    rw [append_assoc] at ht
    refine (ih _ ht).next ?_
    cases b with
    | false =>
      simp only [State.point, step, parseDotted2, cons_append, nil_append,
        charToDigit_none '#' (r.getD .ten) (by decide), if_true]
    | true => rfl

theorem step_point {b char t x ctx} (hdigit : charToDigit char ctx.radix = none)
    (hsharp : char ≠ '#') :
    step flo (State.point b (char :: t) n x ctx) = parseDotted4 flo char t n x ctx := by
  cases b with
  | false => simp only [State.point, step, parseDotted2, hdigit, if_neg hsharp]
  | true => simp only [State.point, step, parseDotted3, if_neg hsharp]

theorem Marked.reaches {base x} (h : Marked (r.getD .ten) sign base w n x) (t) (ht : T = w ++ t) :
    Reaches (step flo) (.topLevel T e r comp)
      (.exponent1 t n x base ⟨orImplicit e, r.getD .ten, sign, comp⟩) := by
  cases h with
  | @integer b w n char hw hmark =>
    obtain ⟨hdigit, hsharp, hslash, hpoint⟩ := exponentMark_char hmark
    rw [append_assoc] at ht
    refine (Integer.reaches hw _ ht).next ?_
    rw [step_places (fun _ => by simpa [DigitsEnd] using hdigit) (by simpa using hsharp)]
    simp only [Goal.continue, afterInteger, cons_append, nil_append, if_neg hslash,
      if_neg hpoint, Context.behind_radix]
    rw [Context.behind_implicit ⟨e, r.getD .ten, sign, comp⟩ b]
    rcases hmark with ⟨rfl, hten, hmark⟩ | ⟨rfl, hpower⟩
    · rw [if_pos hmark, if_pos hten]
    · rw [if_neg (not_exponentMarker_of_power hpower), if_pos hpower]
  | @point b w n x char hw hmark hsixteen =>
    obtain ⟨hdigit, hsharp, -, -⟩ := exponentMark_char hmark
    rw [append_assoc] at ht
    refine (Point.reaches hw _ ht).next ?_
    simp only [cons_append, nil_append]
    rw [step_point hdigit hsharp, parseDotted4]
    rcases hmark with ⟨rfl, hten, hmark⟩ | ⟨rfl, hpower⟩
    · rw [if_pos hmark, if_pos hten]
    · rw [if_neg (not_exponentMarker_of_power hpower), if_pos hpower, if_pos (hsixteen rfl)]

theorem Exponent.reaches {base x esign y} (h : Exponent (r.getD .ten) sign base esign w n x y) (t)
    (ht : T = w ++ t) :
    Reaches (step flo) (.topLevel T e r comp)
      (.exponentDigits t y esign n x base ⟨orImplicit e, r.getD .ten, sign, comp⟩) := by
  obtain ⟨m, char, d, hm, hd, hplaces⟩ := h
  refine hplaces.reaches (L := fun _ t y =>
    .exponentDigits t y esign n x base ⟨orImplicit e, r.getD .ten, sign, comp⟩) ?_ nofun ?_ t ht
  · intro char d t y hd
    simp only [step, parseExponentDigits, hd]
    rfl
  · intro t ht
    rw [append_assoc, append_assoc] at ht
    refine (hm.reaches _ ht).next ?_
    cases esign with
    | none =>
      show parseExponent1 (char :: t) _ _ _ _ = _
      simp only [parseExponent1, signOf_digit hd, getDigits, hd]
    | some esign =>
      show parseExponent1 (esign.char :: char :: t) _ _ _ _ = _
      simp only [parseExponent1, signOf_char, getDigits, hd]

theorem Payload.reaches {quiet y} (h : Payload (r.getD .ten) sign quiet w y) (t) (ht : T = w ++ t) :
    Reaches (step flo) (.topLevel T e r comp)
      (.nanPayload t y quiet ⟨e, r.getD .ten, sign, comp⟩) := by
  obtain ⟨s, name, rfl, hname, hplaces⟩ := h
  refine hplaces.reaches (L := fun _ t y =>
    .nanPayload t y quiet ⟨e, r.getD .ten, some s, comp⟩) ?_ nofun ?_ t ht
  · intro char d t y hd
    simp only [step, parseNanPayload, hd]
  · rintro t rfl
    refine (reaches_unsigned (some s) (name ++ t)).next ?_
    cases quiet with
    | true =>
      obtain ⟨char, v, rfl, hfirst, hpattern⟩ := hname
      have hi : ¬isI char := by rcases of_decide_eq_true hfirst with rfl | rfl <;> decide
      have hnone : charToDigit char (r.getD .ten) = none ∧ char ≠ '.' := by
        rcases of_decide_eq_true hfirst with rfl | rfl <;>
          exact ⟨charToDigit_none _ _ (by decide), by decide⟩
      simp only [State.unsigned, step, findLeader, cons_append, hnone.1, if_neg hnone.2,
        if_neg hi, if_pos hfirst, afterPattern_append hpattern]
    | false =>
      obtain ⟨char, v, rfl, hfirst, hpattern⟩ := hname
      have hi : ¬isI char ∧ ¬isN char := by
        rcases of_decide_eq_true hfirst with rfl | rfl | rfl <;> decide
      have hnone : charToDigit char (r.getD .ten) = none ∧ char ≠ '.' := by
        rcases of_decide_eq_true hfirst with rfl | rfl | rfl <;>
          exact ⟨charToDigit_none _ _ (by decide), by decide⟩
      simp only [State.unsigned, step, findLeader, cons_append, hnone.1, if_neg hnone.2,
        if_neg hi.1, if_neg hi.2, if_pos hfirst, afterPattern_append hpattern]

/-- A character that begins a second number, or stands in front of it. -/
def Separates (char : Char) : Prop := (∃ sign, char = Sign.char sign) ∨ char = '@'

theorem Separates.ends {char} (h : Separates char) (radix t) :
    DigitsEnd (char :: t) radix ∧ (char :: t).head? ≠ some '#' := by
  rcases h with ⟨_ | _, rfl⟩ | rfl <;> simp [DigitsEnd, Sign.char, charToDigit_none]

theorem Separates.other {char : Char} (h : Separates char) :
    char ≠ '/' ∧ char ≠ '.' ∧ char ≠ '#' ∧ ¬exponentMarker char ∧ ¬powerMarker char ∧ ¬isI char := by
  rcases h with ⟨_ | _, rfl⟩ | rfl <;> decide

/-- The state behind a real number. -/
def Behind (e : Option Exactness) (r : Option Radix) (comp : Comp F) (S : State F)
    (t : List Char) (flo : Flonums F) : Prop :=
  ∃ x ctx, Reaches (step flo) S (.complex t x ctx) ∧ ctx.radix = r.getD .ten ∧
    explicit ctx.exactness = explicit e ∧ ctx.comp = comp

theorem behind_dotted5 {S s t x base y} (sign) (hs : Reaches (step flo) S s) (hstep : step flo s =
      parseDotted5 flo t n x ⟨orImplicit e, r.getD .ten, sign, comp⟩ base y)
    (hscaled : ¬Unscalable flo n x (orImplicit e) (r.getD .ten) base y) :
    Behind e r comp S t flo := by
  obtain ⟨v, hv⟩ := finishReal_ok_iff.mpr hscaled
  refine ⟨v, ⟨orImplicit e, r.getD .ten, sign, comp⟩, hs.next ?_, rfl, explicit_orImplicit e, rfl⟩
  rw [hstep, parseDotted5, hv]
  rfl

theorem explicit_behind (ctx : Context F) (b : Bool) :
    explicit (ctx.behind b).exactness = explicit ctx.exactness ∧ (ctx.behind b).comp = ctx.comp := by
  cases b
  · exact ⟨rfl, rfl⟩
  · exact ⟨explicit_orImplicit _, rfl⟩

/-- A denominator is behind the `/` just where something was read of it. -/
theorem reaches_denominator (flo : Flonums F) (e : Option Exactness) (comp : Comp F) {a b b' d}
    (ha : Integer (r.getD .ten) sign b a n) (hw : Places (r.getD .ten) (a ++ ['/']) 0 b' w d)
    (t : List Char) (ht : T = w ++ t) :
    ∃ start ctx, Reaches (step flo) (.topLevel T e r comp)
        (State.places b' t d (.denominator n start) ctx) ∧
      (t.length < start.length ↔ w ≠ a ++ ['/']) ∧ ctx.radix = r.getD .ten ∧
      explicit ctx.exactness = explicit e ∧ ctx.comp = comp := by
  obtain ⟨he, hcomp⟩ := explicit_behind (F := F) ⟨e, r.getD .ten, sign, comp⟩ b
  have hctx := Context.behind_radix (F := F) ⟨e, r.getD .ten, sign, comp⟩ b
  obtain ⟨v, rfl, -⟩ := hw.eaten
  refine ⟨v ++ t, Context.behind ⟨e, r.getD .ten, sign, comp⟩ b, ?_, ?_, hctx, he, hcomp⟩
  · refine Places.reaches_places _ _ (by rw [hctx]; exact hw) ?_ t ht
    intro t' ht'
    have hstart : t' = v ++ t := by
      rw [ht, append_assoc] at ht'
      exact (List.append_cancel_left ht').symm
    rw [append_assoc] at ht'
    refine (ha.reaches _ ht').next ?_
    rw [step_places (fun _ => by simp [DigitsEnd, charToDigit_none]) (by simp)]
    simp only [Goal.continue, afterInteger, cons_append, nil_append, if_true, hstart]
  · rw [List.length_append]
    cases v <;> simp

theorem RealText.reaches {char t} (h : RealText (r.getD .ten) sign flo e w)
    (hchar : Separates char) (ht : T = w ++ char :: t) :
    Behind e r comp (.topLevel T e r comp) (char :: t) flo := by
  obtain ⟨hslash, hpoint, hsharp, hexponent, hpower, hi⟩ := hchar.other
  obtain ⟨hdigits, hhead⟩ := hchar.ends (r.getD .ten) t
  have hnone : charToDigit char (r.getD .ten) = none := hdigits char rfl
  cases h with
  | @integer b w n hw =>
    obtain ⟨he, hcomp⟩ := explicit_behind (F := F) ⟨e, r.getD .ten, sign, comp⟩ b
    have hctx := Context.behind_radix (F := F) ⟨e, r.getD .ten, sign, comp⟩ b
    generalize hb : Context.behind _ b = ctx at he hcomp hctx
    refine ⟨finishInteger flo n ctx.exactness ctx.sign, ctx, (hw.reaches _ ht).next ?_, hctx, he,
      hcomp⟩
    rw [step_places (fun _ => hdigits) hhead]
    simp only [Goal.continue, afterInteger, if_neg hslash, if_neg hpoint, if_neg hexponent,
      if_neg hpower, hb]
  | @ratio a b n b' w d ha hw hd =>
    obtain ⟨start, ctx, hreaches, hlength, hctx, he, hcomp⟩ :=
      reaches_denominator flo e comp ha hw _ ht
    obtain ⟨q, hq⟩ := (finishRational_ok_iff flo n d (ctx.behind b').exactness
      (ctx.behind b').sign).mpr hd
    have hlt := hlength.mpr fun h => hd (hw.value_of_start h)
    refine ⟨q, ctx.behind b', hreaches.next ?_, (Context.behind_radix ctx b').trans hctx,
      (explicit_behind ctx b').1.trans he, (explicit_behind ctx b').2.trans hcomp⟩
    rw [step_places (fun _ => hctx ▸ hdigits) hhead]
    simp only [Goal.continue, afterDenominator, if_pos hlt, hq, ok_bind]
    rfl
  | @point b w n x hw =>
    refine behind_dotted5 (n := n) (x := x) (y := 0) sign (hw.reaches _ ht) ?_ not_unscalable_ten
    rw [step_point hnone hsharp, parseDotted4, if_neg hexponent, if_neg hpower]
  | @exponent base esign w n x y hw hscaled =>
    refine behind_dotted5 (n := n) (x := x) sign (hw.reaches _ ht) ?_ hscaled
    have hten : charToDigit char .ten = none := (hchar.ends .ten t).1 char rfl
    simp only [step, parseExponentDigits, hten]
    rfl
  | @infinity s w hsign he hname =>
    obtain ⟨first, v, rfl, hfirst, hpattern⟩ := hname
    subst hsign ht
    refine ⟨.flonum (if s = .minus then flo.negInf else flo.posInf),
      ⟨e, r.getD .ten, some s, comp⟩, Reaches.next
        (reaches_unsigned (some s) (first :: (v ++ char :: t))) ?_, rfl, rfl, rfl⟩
    have hfirst' : charToDigit first (r.getD .ten) = none ∧ first ≠ '.' := by
      rcases of_decide_eq_true hfirst with rfl | rfl <;>
        exact ⟨charToDigit_none _ _ (by decide), by decide⟩
    simp only [State.unsigned, step, findLeader, hfirst'.1, if_neg hfirst'.2,
      if_pos hfirst, afterPattern_append hpattern, if_neg he]
  | @nan quiet w y he hw hquiet hlt =>
    refine ⟨.flonum (flo.nan (sign = some .minus) quiet y), ⟨e, r.getD .ten, sign, comp⟩,
      (hw.reaches _ ht).next ?_, rfl, rfl, rfl⟩
    have hfinish : finishNan flo y quiet ⟨e, r.getD .ten, sign, comp⟩ = _ :=
      finishNan_some ⟨hquiet, he⟩ hlt
    simp only [step, parseNanPayload, hnone, hfinish, ok_bind]
    rfl

end

end MitScheme.Runtime.NumberParser
