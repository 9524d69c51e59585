import MitScheme.Runtime.NumberParseRuns

/-! # Whole parses

What `string->number` promises: it returns a number or `#f`; a number that is not
real was written with an `i` at the end or with an `@`; an exponent of two was
written in radix 16. Each promise is kept just when the text does not contain one
kind of number of the grammar. -/

namespace MitScheme.Runtime.NumberParser
open Arith Lib.Outcome
open Lib.Halting (Next Reaches)

variable {F : Type} {flo : Flonums F} {string : List Char} {radix : Option Radix}

/-! ## Reached states -/

def Reached (flo : Flonums F) (string : List Char) (radix : Option Radix) (s : State F) : Prop :=
  Reaches (step flo) (.number string none none radix) s

theorem Reached.read {s} (h : Reached flo string radix s) : Read flo string radix s :=
  h.invariant (.marks .nil rfl rfl) fun _ _ _ ha hstep => (step_follows hstep).read _ _ ha

/-- The parser ends, other than with `#f`, behind what it has read of a number. -/
theorem Reached.within {s} (h : Reached flo string radix s)
    (hstep : step flo s ≠ .ok (.done none) ∧ ∀ s', step flo s ≠ .ok (.goto s')) :
    ∃ e w, Within flo string radix e w s := by
  cases h.read with
  | @marks m input e r =>
    obtain ⟨hreject, hgoto⟩ := hstep
    rw [step] at hreject hgoto
    revert hreject hgoto
    fun_cases parseNumber (F := F) input e r radix
    all_goals first
      | exact fun hreject => absurd rfl hreject
      | exact fun _ hgoto => absurd rfl (hgoto _)
  | within h => exact ⟨_, _, h⟩

theorem stringToNumber_error_iff : (∃ e, stringToNumber flo string radix = .error e) ↔
    ∃ s, Reached flo string radix s ∧ ∃ e, step flo s = .error e := by
  rw [stringToNumber, Lib.Halting.run_error_iff _ step_measure (Nat.lt_succ_self _)]
  rfl

theorem stringToNumber_ok_iff {z} : stringToNumber flo string radix = .ok z ↔
    ∃ s, Reached flo string radix s ∧ step flo s = .ok (.done z) := by
  rw [stringToNumber, Lib.Halting.run_ok_iff _ step_measure (Nat.lt_succ_self _)]
  rfl

theorem Marks.reached {m e r} (h : Marks m e r) :
    ∀ text, string = m ++ text → Reached flo string radix (.number text e r radix) := by
  induction h with
  | nil =>
    rintro text rfl
    exact Reaches.refl _
  | @radix m e char r _ hr ih =>
    intro text ht
    rw [List.append_assoc] at ht
    refine (ih _ ht).next ?_
    show parseNumber ('#' :: char :: text) _ _ _ = _
    simp only [parseNumber, hr, Option.isNone_none, if_true]
  | @exactness m r char e _ he ih =>
    intro text ht
    rw [List.append_assoc] at ht
    refine (ih _ ht).next ?_
    have hnone : radixMarker char = none := by
      have hmem := (exactnessMarker_some he).2
      simp only [List.mem_cons, List.not_mem_nil, or_false] at hmem
      rcases hmem with rfl | rfl | rfl | rfl <;> rfl
    show parseNumber ('#' :: char :: text) _ _ _ = _
    simp only [parseNumber, hnone, he, Option.isNone_none, if_true]

theorem parseNumber_other {c text e r radix} (hc : c ≠ '#') :
    parseNumber (F := F) (c :: text) e r radix =
      .ok (.goto (.topLevel (c :: text) e (r.or radix) .real)) := by
  unfold parseNumber
  split
  · rename_i h
    cases h
  · rename_i h
    exact absurd (List.cons.inj h).1 hc
  · rename_i h
    exact absurd (List.cons.inj h).1 hc
  · rfl

/-- The parser arrives in front of each number of the text. -/
theorem NumberAt.reached {e place text} (h : NumberAt flo string radix e place text) :
    explicit e = e ∧ ∃ r comp, Reached flo string radix (.topLevel text e r comp) ∧
      comp.place = place ∧ r.getD .ten = readRadix string radix := by
  have hreads {r : Option Radix} {comp : Comp F} {text : List Char}
      (hreached : Reached flo string radix (.topLevel text e r comp)) :
      r.getD .ten = readRadix string radix := by
    cases hreached.read with
    | within h => exact h.reads
  -- the text of the first number is behind it
  have hbehind {r : Option Radix} {comp : Comp F} {w : List Char} {sign : Option Sign} {c : Char}
      {t : List Char} (hc : Separates c) (hr : r.getD .ten = readRadix string radix)
      (hw : RealText (readRadix string radix) sign flo e w)
      (hreached : Reached flo string radix (.topLevel (w ++ c :: t) e r comp))
      (hplace : comp.place = .real) : ∃ x ctx, Reached flo string radix (.complex (c :: t) x ctx) ∧
        explicit ctx.exactness = explicit e ∧ ctx.comp = .real := by
    rw [← hr] at hw
    obtain ⟨x, ctx, hruns, -, hexplicit, hcomp⟩ :
        Behind e r comp (.topLevel (w ++ c :: t) e r comp) (c :: t) flo := hw.reaches hc rfl
    refine ⟨x, ctx, hreached.trans hruns, hexplicit, hcomp.trans ?_⟩
    cases comp with
    | real => rfl
    | imag => cases hplace
    | angle => cases hplace
  induction h with
  | @first m r c text hm hstring hc =>
    refine ⟨hm.explicit, r.or radix, .real, ?_⟩
    have hnext : Reached flo string radix (.topLevel (c :: text) e (r.or radix) .real) :=
      (hm.reached _ hstring).next (parseNumber_other hc)
    exact ⟨hnext, rfl, hreads hnext⟩
  | @imag w sign s text _ hw ih =>
    obtain ⟨he, r, comp, hreached, hplace, hr⟩ := ih
    obtain ⟨x, ctx, hruns, hexplicit, hcomp⟩ := hbehind (.inl ⟨s, rfl⟩) hr hw hreached hplace
    have hnext : Reached flo string radix
        (.topLevel (s.char :: text) e (some ctx.radix) (.imag x)) := by
      refine hruns.next ?_
      have hi : ¬isI s.char := by cases s <;> decide
      show parseComplex flo (s.char :: text) x ctx = _
      simp only [parseComplex, if_neg hi, hcomp, signOf_char, Option.isSome_some, if_true]
      rw [← hexplicit.trans he]
      rfl
    exact ⟨he, _, _, hnext, rfl, hreads hnext⟩
  | @angle w sign text _ hw ih =>
    obtain ⟨he, r, comp, hreached, hplace, hr⟩ := ih
    obtain ⟨x, ctx, hruns, hexplicit, hcomp⟩ := hbehind (.inr rfl) hr hw hreached hplace
    have hnext : Reached flo string radix (.topLevel text e (some ctx.radix) (.angle x)) := by
      refine hruns.next ?_
      have hi : ¬isI '@' := by decide
      show parseComplex flo ('@' :: text) x ctx = _
      simp only [parseComplex, if_neg hi, hcomp, if_true]
      rw [← hexplicit.trans he]
      rfl
    exact ⟨he, _, _, hnext, rfl, hreads hnext⟩

/-! ## Texts and ends -/

theorem acceptEnd_error {comp : Comp F} {v} (hplace : comp.place ≠ .imag) (hv : ∃ e, v = .error e) :
    ∃ e, comp.acceptEnd flo v = .error e := by
  obtain ⟨e, rfl⟩ := hv
  cases comp with
  | imag re => exact absurd rfl hplace
  | _ => exact ⟨e, rfl⟩

theorem bind_error {α β : Type} {x} (f : α → Result β) (h : ∃ e, x = .error e) :
    ∃ e, (x >>= f) = .error e := by
  obtain ⟨e, rfl⟩ := h
  exact ⟨e, rfl⟩

theorem finishReal_fails {n x e r base sign y} (h : Unscalable flo n x e r base y) :
    ∃ err, finishReal flo n x e r sign base y = .error err :=
  not_exists_ok.mp fun hok => finishReal_ok_iff.mp hok h

theorem HasFault.fails (h : HasFault flo string radix) :
    ∃ s, Reached flo string radix s ∧ ∃ e, step flo s = .error e := by
  obtain ⟨e, place, text, hat, hfault⟩ := h
  obtain ⟨he, r, comp, hreached, rfl, hr⟩ := hat.reached
  rw [← hr] at hfault
  cases hfault with
  | @ratio sign b a n b' w rest ha hw hread hdigits hsharp =>
    obtain ⟨start, ctx, hruns, hlength, hctx, -⟩ := reaches_denominator flo e comp ha hw rest rfl
    refine ⟨_, hreached.trans hruns, ?_⟩
    rw [step_places (by rw [hctx]; exact hdigits) hsharp, Goal.continue, afterDenominator,
      if_pos (hlength.mpr hread)]
    exact bind_error _ (not_exists_ok.mp fun h => (finishRational_ok_iff ..).mp h rfl)
  | sharps hw hplace hscaled =>
    refine ⟨_, hreached.trans (hw.reaches [] (List.append_nil _).symm), ?_⟩
    exact acceptEnd_error hplace (finishReal_fails hscaled)
  | @exponent sign base esign w n x y rest hw hdigits hplace hscaled =>
    refine ⟨_, hreached.trans (hw.reaches _ rfl), ?_⟩
    cases rest with
    | nil => exact acceptEnd_error (hplace rfl) (finishReal_fails hscaled)
    | cons char rest =>
      have hnone : charToDigit char .ten = none := hdigits char rfl
      simp only [step, parseExponentDigits, hnone]
      exact bind_error _ (finishReal_fails hscaled)
  | @payload sign quiet w y rest hexact hw hdigits hle =>
    refine ⟨_, hreached.trans (hw.reaches _ rfl), ?_⟩
    have hgood : (quiet ∨ y ≠ 0) ∧ e ≠ some .exact :=
      ⟨.inr (Nat.ne_of_gt (Nat.lt_of_lt_of_le (by decide) hle)), hexact⟩
    have hfinish : finishNan flo y quiet ⟨e, r.getD .ten, sign, comp⟩ = _ :=
      finishNan_error hgood hle
    cases rest with
    | nil => exact bind_error _ ⟨_, hfinish⟩
    | cons char rest =>
      have hnone : charToDigit char (r.getD .ten) = none := hdigits char rfl
      simp only [step, parseNanPayload, hnone]
      exact bind_error _ ⟨_, hfinish⟩

theorem hasFault_iff : HasFault flo string radix ↔
    ∃ s, Reached flo string radix s ∧ ∃ e, step flo s = .error e := by
  refine ⟨HasFault.fails, ?_⟩
  rintro ⟨s, hs, err, h⟩
  obtain ⟨e, w, hw⟩ := hs.within (by simp [h])
  exact ⟨e, _, _, hw.starts, hw.reads ▸ step_fails h e w hw.word⟩

theorem EndsInNan.recnum (h : EndsInNan flo string radix) :
    ∃ re im, stringToNumber flo string radix = .ok (some (.recnum re im)) := by
  obtain ⟨e, sign, quiet, w, y, hat, hexact, hw, hquiet, hlt⟩ := h
  obtain ⟨he, r, comp, hreached, hplace, hr⟩ := hat.reached
  rw [← hr] at hw
  have hfinish : finishNan flo y quiet ⟨e, r.getD .ten, sign, comp⟩ = _ :=
    finishNan_some ⟨hquiet, hexact⟩ hlt
  cases comp with
  | imag re =>
    refine ⟨re, .flonum (flo.nan (sign = some .minus) quiet y), stringToNumber_ok_iff.mpr
      ⟨_, hreached.trans (hw.reaches [] (List.append_nil _).symm), ?_⟩⟩
    rw [step, parseNanPayload, hfinish]
    rfl
  | real => cases hplace
  | angle => cases hplace

/-! ## The characters of words -/

theorem signText_plain (sign) : ∀ c ∈ signText sign, Plain c := by
  rcases sign with _ | _ | _ <;> simp [signText, Sign.char, Plain, powerMarker]

theorem plain_of_exponentMarker {char} (h : exponentMarker char) : Plain char := by
  have hall : ∀ c ∈ ['e', 'E', 's', 'S', 'f', 'F', 'd', 'D', 'l', 'L'], Plain c := by
    simp [Plain, powerMarker]
  exact hall char (of_decide_eq_true h)

theorem Marks.plain {m e r} (h : Marks m e r) : ∀ c ∈ m, Plain c := by
  have hmark {char : Char} (hr : (radixMarker char).isSome ∨ (exactnessMarker char).isSome) :
      ∀ c ∈ ['#', char], Plain c := by
    have hplain : Plain char := by
      by_contra hnot
      simp only [Plain, powerMarker, decide_eq_true_eq, not_and_or, not_not] at hnot
      rcases hnot with rfl | rfl | rfl <;> revert hr <;> decide
    exact List.forall_mem_cons.mpr ⟨by decide, List.forall_mem_singleton.mpr hplain⟩
  induction h with
  | nil => simp
  | radix _ hr ih => exact List.forall_mem_append.mpr ⟨ih, hmark (.inl (by rw [hr]; rfl))⟩
  | exactness _ he ih => exact List.forall_mem_append.mpr ⟨ih, hmark (.inr (by rw [he]; rfl))⟩

section
variable {radix : Radix} {sign : Option Sign} {w v : List Char} {n : Nat}

theorem Places.plain {start n₀ b} (h : Places radix start n₀ b w n)
    (hstart : ∀ c ∈ start, Plain c) : ∀ c ∈ w, Plain c := by
  obtain ⟨v, rfl, -, hv⟩ := h.eaten
  exact List.forall_mem_append.mpr ⟨hstart, fun c hc => (hv c hc).1⟩

theorem Integer.plain {b} (h : Integer radix sign b w n) : ∀ c ∈ w, Plain c := by
  obtain ⟨char, d, hd, hw⟩ := h
  exact hw.plain (List.forall_mem_append.mpr
    ⟨signText_plain sign, List.forall_mem_singleton.mpr (plain_of_digit hd).1⟩)

theorem Point.plain {b x} (h : Point radix sign b w n x) : ∀ c ∈ w, Plain c := by
  induction h with
  | integer hw =>
    exact List.forall_mem_append.mpr ⟨hw.plain, List.forall_mem_singleton.mpr (by decide)⟩
  | leading _ hd =>
    exact List.forall_mem_append.mpr ⟨signText_plain sign, List.forall_mem_cons.mpr
      ⟨by decide, List.forall_mem_singleton.mpr (plain_of_digit hd).1⟩⟩
  | digit _ hd ih =>
    exact List.forall_mem_append.mpr ⟨ih, List.forall_mem_singleton.mpr (plain_of_digit hd).1⟩
  | sharp _ ih => exact List.forall_mem_append.mpr ⟨ih, List.forall_mem_singleton.mpr (by decide)⟩

theorem afterPattern_forall {P : Char → Prop} {pattern} (hP : ∀ p ∈ pattern, P p ∧ P p.toUpper)
    (h : afterPattern pattern v = some []) : ∀ c ∈ v, P c := by
  induction pattern generalizing v with
  | nil =>
    obtain rfl := Option.some.inj h
    simp
  | cons p pattern ih =>
    cases v with
    | nil => simp
    | cons char v =>
      rw [afterPattern] at h
      split at h
      · rename_i hc
        obtain ⟨hp, hpattern⟩ := List.forall_mem_cons.mp hP
        refine List.forall_mem_cons.mpr ⟨?_, ih hpattern h⟩
        rcases hc with rfl | rfl
        · exact hp.1
        · exact hp.2
      · cases h

theorem Named.forall {P : Char → Prop} [DecidablePred P] {first : Char → Bool} {pattern}
    (h : Named first pattern w) (hfirst : ∀ c, first c → P c)
    (hP : pattern.all fun p => P p ∧ P p.toUpper) : ∀ c ∈ w, P c := by
  obtain ⟨char, v, rfl, hchar, hv⟩ := h
  have hpattern (p) (hp : p ∈ pattern) : P p ∧ P p.toUpper :=
    of_decide_eq_true (List.all_eq_true.mp hP p hp)
  exact List.forall_mem_cons.mpr ⟨hfirst char hchar, afterPattern_forall hpattern hv⟩

theorem Payload.plain {quiet y} (h : Payload radix sign quiet w y) :
    w ≠ [] ∧ ∀ c ∈ w, Plain c ∧ ¬isI c := by
  obtain ⟨s, name, rfl, hname, hw⟩ := h
  obtain ⟨v, rfl, -, hv⟩ := hw.eaten
  have hplain : ∀ c ∈ name, Plain c ∧ ¬isI c := by
    cases quiet with
    | true =>
      refine Named.forall hname (fun c hc => ?_) (by decide)
      rcases of_decide_eq_true hc with rfl | rfl <;> decide
    | false =>
      refine Named.forall hname (fun c hc => ?_) (by decide)
      rcases of_decide_eq_true hc with rfl | rfl | rfl <;> decide
  have hsign : Plain s.char ∧ ¬isI s.char := by cases s <;> decide
  exact ⟨by simp, List.forall_mem_append.mpr ⟨List.forall_mem_cons.mpr ⟨hsign, hplain⟩, hv⟩⟩

def PowerBehind (radix : Radix) (w : List Char) : Prop :=
  ∃ sign b v n char t, w = v ++ char :: t ∧ Integer radix sign b v n ∧ powerMarker char

/-- A word without `@`, in which the marks of powers of two are those of radix 16 or stand
behind an integer. -/
structure Clear (radix : Radix) (w : List Char) : Prop where
  noAt : '@' ∉ w
  power : (∃ c ∈ w, powerMarker c) → radix = .sixteen ∨ PowerBehind radix w

theorem Clear.of_plain (h : ∀ c ∈ w, Plain c) : Clear radix w :=
  ⟨fun hat => (h _ hat).1 rfl, fun ⟨c, hc, hp⟩ => absurd hp (h c hc).2⟩

theorem Clear.append (h : Clear radix w) (hv : ∀ c ∈ v, Plain c) : Clear radix (w ++ v) := by
  refine ⟨?_, ?_⟩
  · rw [List.mem_append, not_or]
    exact ⟨h.noAt, fun hat => (hv _ hat).1 rfl⟩
  · rintro ⟨c, hc, hp⟩
    rcases List.mem_append.mp hc with hc | hc
    · refine (h.power ⟨c, hc, hp⟩).imp id ?_
      rintro ⟨sign, b, u, n, char, t, rfl, hu, hchar⟩
      exact ⟨sign, b, u, n, char, t ++ v, by simp, hu, hchar⟩
    · exact absurd hp (hv c hc).2

theorem Marked.clear {base x} (h : Marked radix sign base w n x) : Clear radix w := by
  have hmark {u : List Char} {char : Char} (hu : ∀ c ∈ u, Plain c)
      (hchar : ExponentMark radix base char)
      (hpower : base = .two → radix = .sixteen ∨ PowerBehind radix (u ++ [char])) :
      Clear radix (u ++ [char]) := by
    rcases hchar with ⟨-, -, hchar⟩ | ⟨hbase, hchar⟩
    · exact (Clear.of_plain hu).append (List.forall_mem_singleton.mpr (plain_of_exponentMarker hchar))
    · refine ⟨?_, fun _ => hpower hbase⟩
      rw [List.mem_append, not_or, List.mem_singleton]
      refine ⟨fun hat => (hu _ hat).1 rfl, ?_⟩
      rintro rfl
      exact absurd hchar (by decide)
  cases h with
  | integer hu hchar =>
    refine hmark hu.plain hchar fun hbase => .inr ⟨_, _, _, _, _, [], rfl, hu, ?_⟩
    rcases hchar with ⟨hten, -⟩ | ⟨-, hpower⟩
    · rw [hbase] at hten
      cases hten
    · exact hpower
  | point hu hchar hsixteen => exact hmark hu.plain hchar fun hbase => .inl (hsixteen hbase)

theorem Exponent.clear {base esign x y} (h : Exponent radix sign base esign w n x y) :
    Clear radix w := by
  obtain ⟨m, char, d, hm, hd, hw⟩ := h
  obtain ⟨v, rfl, -, hv⟩ := hw.eaten
  refine ((hm.clear.append (signText_plain esign)).append ?_).append fun c hc => (hv c hc).1
  exact List.forall_mem_singleton.mpr (plain_of_digit hd).1

theorem ratio_plain {a b b' d} (ha : Integer radix sign b a n)
    (hw : Places radix (a ++ ['/']) 0 b' w d) : ∀ c ∈ w, Plain c :=
  hw.plain (List.forall_mem_append.mpr ⟨ha.plain, List.forall_mem_singleton.mpr (by decide)⟩)

theorem RealText.clear {e} (h : RealText radix sign flo e w) : Clear radix w := by
  cases h with
  | integer hw => exact .of_plain hw.plain
  | ratio ha hw _ => exact .of_plain (ratio_plain ha hw)
  | point hw => exact .of_plain hw.plain
  | exponent hw _ => exact hw.clear
  | @infinity s w _ _ hname =>
    have hsign : Plain s.char := by cases s <;> decide
    refine .of_plain (List.forall_mem_cons.mpr ⟨hsign, hname.forall (fun c hc => ?_) (by decide)⟩)
    rcases of_decide_eq_true hc with rfl | rfl <;> decide
  | nan _ hw _ _ => exact .of_plain fun c hc => (hw.plain.2 c hc).1

end

theorem Word.clear {e s w} (h : Word flo e s w) : Clear s.radix w := by
  have hgoal {ctx : Context F} {b : Bool} {input : List Char} {n : Nat} {goal : Goal}
      (h : goal.Word ctx b input n w) : Clear ctx.radix w := by
    cases goal with
    | integer => exact .of_plain (Integer.plain h)
    | denominator numerator start =>
      obtain ⟨b, a, n, ha, hw, -⟩ := h
      exact .of_plain (ratio_plain ha hw)
  cases s with
  | number => exact h.elim
  | topLevel =>
    obtain ⟨-, rfl⟩ := h
    exact .of_plain (by simp)
  | leader _ _ _ sign =>
    obtain ⟨-, rfl⟩ := h
    exact .of_plain (signText_plain (some sign))
  | digits => exact hgoal h.2
  | sharps => exact hgoal h.2
  | dotted1 _ ctx =>
    obtain ⟨-, rfl, -⟩ := h
    exact .of_plain (List.forall_mem_append.mpr
      ⟨signText_plain ctx.sign, List.forall_mem_singleton.mpr (by decide)⟩)
  | dotted2 => exact .of_plain h.2.plain
  | dotted3 => exact .of_plain h.2.plain
  | exponent1 => exact h.2.clear
  | exponentDigits => exact h.2.clear
  | complex => exact h.2.clear
  | nanPayload => exact .of_plain fun c hc => (h.2.plain.2 c hc).1

/-! ## The promises -/

theorem PowerBehind.hasIntegerPower {e place w t} (h : PowerBehind (readRadix string radix) w)
    (hstarts : NumberAt flo string radix e place (w ++ t))
    (hradix : readRadix string radix ≠ .sixteen) : HasIntegerPower flo string radix := by
  obtain ⟨sign, b, v, n, char, u, rfl, hv, hchar⟩ := h
  rw [List.append_assoc, List.cons_append] at hstarts
  exact ⟨e, place, sign, b, v, n, char, u ++ t, hstarts, hv, hchar, hradix⟩

/-- An `@` of a string is in front of the angle, and a mark of a power of two in a number
behind, if it is not one of radix 16 or behind an integer. -/
theorem NumberAt.clear {e place text} (h : NumberAt flo string radix e place text) :
    (∃ front, string = front ++ text) ∧ (place = .angle → '@' ∈ string) ∧
    (place ≠ .angle → '@' ∈ string → '@' ∈ text) ∧
    ((∃ c ∈ string, powerMarker c) → readRadix string radix = .sixteen ∨
      HasIntegerPower flo string radix ∨ ∃ c ∈ text, powerMarker c) := by
  -- what is in front of `rest` is a number of which the text is known
  have hpast {w rest : List Char} {sign : Option Sign}
      (hw : RealText (readRadix string radix) sign flo e w)
      (hstarts : NumberAt flo string radix e .real (w ++ rest)) :
      (∃ c ∈ w ++ rest, powerMarker c) → readRadix string radix = .sixteen ∨
        HasIntegerPower flo string radix ∨ ∃ c ∈ rest, powerMarker c := by
    rintro ⟨c, hc, hp⟩
    by_cases hradix : readRadix string radix = .sixteen
    · exact .inl hradix
    · rcases List.mem_append.mp hc with hc | hc
      · exact .inr (.inl (((hw.clear.power ⟨c, hc, hp⟩).resolve_left hradix).hasIntegerPower
          hstarts hradix))
      · exact .inr (.inr ⟨c, hc, hp⟩)
  induction h with
  | @first m r c text hm hstring hc =>
    have hclear : Clear (readRadix string radix) m := .of_plain hm.plain
    refine ⟨⟨m, hstring⟩, nofun, fun _ hat => ?_, ?_⟩
    · rw [hstring] at hat
      exact (List.mem_append.mp hat).resolve_left hclear.noAt
    · rintro ⟨c', hc', hp⟩
      rw [hstring] at hc'
      rcases List.mem_append.mp hc' with hc' | hc'
      · exact absurd hp (hm.plain c' hc').2
      · exact .inr (.inr ⟨c', hc', hp⟩)
  | @imag w sign s text hstarts hw ih =>
    obtain ⟨⟨front, hstring⟩, -, hat, hpower⟩ := ih
    refine ⟨⟨front ++ w, by rw [List.append_assoc]; exact hstring⟩, nofun, fun _ h => ?_, fun h => ?_⟩
    · exact (List.mem_append.mp (hat nofun h)).resolve_left hw.clear.noAt
    · rcases hpower h with h | h | h
      · exact .inl h
      · exact .inr (.inl h)
      · exact hpast hw hstarts h
  | @angle w sign text hstarts hw ih =>
    obtain ⟨⟨front, hstring⟩, -, hat, hpower⟩ := ih
    refine ⟨⟨front ++ (w ++ ['@']), by simp [hstring]⟩, fun _ => ?_, fun h => absurd rfl h,
      fun h => ?_⟩
    · rw [hstring]
      simp
    · rcases hpower h with h | h | h
      · exact .inl h
      · exact .inr (.inl h)
      · refine (hpast hw hstarts h).imp id (Or.imp id ?_)
        rintro ⟨c, hc | ⟨_, hc⟩, hp⟩
        · exact absurd hp (by decide)
        · exact ⟨c, hc, hp⟩

theorem nonreal_iff :
    (∀ re im, stringToNumber flo string radix = .ok (some (.recnum re im)) →
      (∃ c, string.getLast? = some c ∧ isI c) ∨ '@' ∈ string) ↔ ¬EndsInNan flo string radix := by
  constructor
  · intro h hends
    obtain ⟨re, im, hz⟩ := hends.recnum
    obtain ⟨e, sign, quiet, w, y, hstarts, -, hw, -⟩ := hends
    obtain ⟨⟨front, hstring⟩, -, hat, -⟩ := hstarts.clear
    obtain ⟨hne, hplain⟩ := hw.plain
    rcases h re im hz with ⟨c, hc, hi⟩ | hmem
    · rw [hstring, List.getLast?_append_of_ne_nil _ hne] at hc
      exact (hplain c (List.mem_of_getLast? hc)).2 hi
    · exact (hplain _ (hat (by decide) hmem)).1.1 rfl
  · intro h re im hz
    obtain ⟨s, hs, hstep⟩ := stringToNumber_ok_iff.mp hz
    obtain ⟨e, w, hw⟩ := hs.within (by simp [hstep])
    obtain ⟨⟨front, hstring⟩, hangle, -⟩ := hw.starts.clear
    rcases (step_ends hstep).recnum re im rfl with hplace | hnan | ⟨c, hi, hin⟩
    · exact .inr (hangle hplace)
    · obtain ⟨hplace, hin, hnan⟩ := hnan
      obtain ⟨hexact, sign, quiet, y, hpayload, hquiet, hlt⟩ := hnan e w hw.word
      have hstarts := hw.starts
      rw [hplace, hin, List.append_nil] at hstarts
      exact absurd ⟨e, sign, quiet, w, y, hstarts, hexact, hw.reads ▸ hpayload, hquiet, hlt⟩ h
    · refine .inl ⟨c, ?_, hi⟩
      rw [hstring, hin, ← List.append_assoc, List.getLast?_concat]

theorem power_iff {z} (hz : stringToNumber flo string radix = .ok (some z)) :
    ((∃ c ∈ string, powerMarker c) → readRadix string radix = .sixteen) ↔
      ¬HasIntegerPower flo string radix := by
  constructor
  · rintro h ⟨e, place, sign, b, w, n, char, text, hstarts, -, hchar, hradix⟩
    obtain ⟨⟨front, hstring⟩, -⟩ := hstarts.clear
    exact hradix (h ⟨char, hstring ▸ by simp, hchar⟩)
  · intro h hmem
    by_contra hradix
    obtain ⟨s, hs, hstep⟩ := stringToNumber_ok_iff.mp hz
    obtain ⟨e, w, hw⟩ := hs.within (by simp [hstep])
    obtain ⟨-, -, -, hpower⟩ := hw.starts.clear
    obtain ⟨c, hc, hp⟩ := ((hpower hmem).resolve_left hradix).resolve_left h
    rcases List.mem_append.mp hc with hc | hc
    · have hclear := hw.word.clear
      rw [hw.reads] at hclear
      exact h (((hclear.power ⟨c, hc, hp⟩).resolve_left hradix).hasIntegerPower hw.starts hradix)
    · rcases (step_ends hstep).input rfl with hin | ⟨i, hi, hin⟩
      · rw [hin] at hc
        cases hc
      · rw [hin, List.mem_singleton] at hc
        rw [hc] at hp
        rcases of_decide_eq_true hi with rfl | rfl <;> exact absurd hp (by decide)

/-- **`string->number` and its grammar**: the parse of a string returns a number or
`#f` just when the string has no number with a zero denominator, an oversized payload or
a power of two out of range; what is not real ends in an `i` or contains an `@` just
when the string does not end in a NaN for an imaginary part; and in a string that is
accepted the marks of powers of two are those of radix 16 just when none stands behind
an integer in another radix. -/
theorem string_to_number_iff (flo : Flonums F) (string : List Char) (radix : Option Radix) :
    ((∃ z, stringToNumber flo string radix = .ok z) ↔ ¬HasFault flo string radix) ∧
    ((∀ re im, stringToNumber flo string radix = .ok (some (.recnum re im)) →
        (∃ c, string.getLast? = some c ∧ isI c) ∨ '@' ∈ string) ↔
      ¬EndsInNan flo string radix) ∧
    ∀ z, stringToNumber flo string radix = .ok (some z) →
      (((∃ c ∈ string, powerMarker c) → readRadix string radix = .sixteen) ↔
        ¬HasIntegerPower flo string radix) := by
  refine ⟨?_, nonreal_iff, fun z hz => power_iff hz⟩
  rw [hasFault_iff, ← stringToNumber_error_iff, ← not_exists_ok, not_not]

/-- Flonums that never round, `none` for what is not finite. -/
def exactFlonums : Flonums (Option ℚ) where
  zero := some 0
  posInf := none
  negInf := none
  nan _ _ _ := none
  negate x := x.map (-·)
  times x y := x.bind fun x => y.map (x * ·)
  divide x y := x.bind fun x => y.map (x / ·)
  denormalize x e := x.map (· * 2 ^ e)
  sin _ := none
  cos _ := none
  isFinite := Option.isSome
  isNan := Option.isNone
  ratToInexact q := some q.toRat
  integerToFlonum n _ := some (some n)
  powersOfTen := (List.range 23).map fun k => some (10 ^ k)

theorem string_to_number_iff_minus_twelve :
    stringToNumber exactFlonums "-12".toList none = .ok (some (.real (.exact (.int (-12))))) ∧
      (((∃ c ∈ "-12".toList, powerMarker c) → readRadix "-12".toList none = .sixteen) ↔
        ¬HasIntegerPower exactFlonums "-12".toList none) :=
  ⟨rfl, (string_to_number_iff exactFlonums "-12".toList none).2.2 _ rfl⟩

/-- A zero denominator is an error, a NaN is an imaginary part without an `i`, and an
exponent of two is read in radix ten. -/
theorem string_to_number_breaks :
    stringToNumber exactFlonums "1/0".toList none = .error .divideByZero ∧
      (∃ re im, stringToNumber exactFlonums "1+nan.0".toList none =
        .ok (some (.recnum re im))) ∧
      (∃ x, stringToNumber exactFlonums "1p1".toList none = .ok (some x)) ∧
      readRadix "1p1".toList none = .ten :=
  ⟨rfl, ⟨_, _, rfl⟩, ⟨_, rfl⟩, rfl⟩

end MitScheme.Runtime.NumberParser
