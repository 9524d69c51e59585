import MitScheme.Runtime.NumberPrint
import MitScheme.Runtime.NumberPromises

/-! # Numbers printed and read back

`rat:->string` of `arith.scm` prints an exact rational as one numeral or as two, and
`string->number` reads them back: it passes over the digits with the value of the
numeral in hand. -/

namespace MitScheme.Runtime.NumberParser
open Arith Lib.Numeral Lib.Outcome
open Lib.Halting (Next Reaches)

variable {F : Type} {flo : Flonums F}

def ratToString (q : Rational) (radix : Arith.Radix) : Result (List Char) :=
  match q with
  | .ratnum n d => do return (← intToString n radix) ++ '/' :: (← intToString d radix)
  | .int n => intToString n radix

def Radix.printed (radix : Radix) : Arith.Radix where
  val := radix.val
  two_le := by cases radix <;> decide
  le_max := by cases radix <;> decide

/-! ## Digits -/

theorem charToDigit_digitToChar {radix d} (hd : d < radix.val) :
    charToDigit (digitToChar d) radix = some d := by
  revert d
  cases radix <;> decide

theorem places_digits {radix} (start n₀) {ds} (hds : ∀ d ∈ ds, d < radix.val) :
    Places radix start n₀ false (start ++ ds.map digitToChar) (read radix.val n₀ ds) := by
  induction ds using List.reverseRecOn with
  | nil =>
    rw [List.map_nil, List.append_nil]
    exact .start
  | append_singleton ds d ih =>
    obtain ⟨hinit, hd⟩ := List.forall_mem_append.mp hds
    have h := (ih hinit).digit (charToDigit_digitToChar (hd d List.mem_cons_self))
    rw [List.append_assoc] at h
    rw [List.map_append, read_append]
    exact h

def signChars (n : Int) : List Char := if n < 0 then ['-'] else []

def signRead (n : Int) : Option Sign := if n < 0 then some .minus else none

theorem signText_signRead (n) : signText (signRead n) = signChars n := by
  rw [signRead, signChars]
  split <;> rfl

theorem reaches_integer (flo : Flonums F) {radix} (n : Int) {ds} (rest : List Char)
    (hne : ds ≠ []) (hds : ∀ d ∈ ds, d < radix.val) :
    Reaches (step flo)
      (.number (signChars n ++ ds.map digitToChar ++ rest) none none (some radix))
      (.digits rest (read radix.val 0 ds) .integer ⟨none, radix, signRead n, .real⟩) := by
  obtain ⟨d, ds, rfl⟩ := List.exists_cons_of_ne_nil hne
  obtain ⟨hlt, hds⟩ := List.forall_mem_cons.mp hds
  have hd := charToDigit_digitToChar hlt
  have hvalue : read radix.val 0 (d :: ds) = read radix.val d ds := by simp [Lib.Numeral.read]
  have hinteger : Integer radix (signRead n) false
      (signChars n ++ (d :: ds).map digitToChar) (read radix.val d ds) := by
    refine ⟨digitToChar d, d, hd, ?_⟩
    have h := places_digits (signText (signRead n) ++ [digitToChar d]) d hds
    rw [List.append_assoc, signText_signRead n] at h
    rw [signText_signRead n]
    exact h
  have hother : parseNumber (F := F) (signChars n ++ (d :: ds).map digitToChar ++ rest) none none
      (some radix) = .ok (.goto (.topLevel (signChars n ++ (d :: ds).map digitToChar ++ rest) none
        (some radix) .real)) := by
    rw [signChars]
    split
    · exact parseNumber_other (by decide)
    · exact parseNumber_other (digit_ne hd (by decide))
  rw [hvalue]
  exact (Integer.reaches (r := some radix) hinteger rest rfl).head hother

/-! ## Reading back -/

theorem stringToNumber_of_reaches {chars radix s z}
    (hr : Reaches (step flo) (.number chars none none radix) s) (hs : step flo s = .ok (.done z)) :
    stringToNumber flo chars radix = .ok z :=
  stringToNumber_ok_iff.mpr ⟨s, hr, hs⟩

theorem padded_reads (radix : Radix) (n) : padded radix.val 1 n ≠ [] ∧
    (∀ d ∈ padded radix.val 1 n, d < radix.val) ∧ read radix.val 0 (padded radix.val 1 n) = n := by
  refine ⟨fun h0 => ?_, fun d => padded_lt radix.printed.two_le, read_padded n⟩
  have := congrArg List.length h0
  simp only [padded, List.length_append, List.length_replicate, List.length_reverse,
    List.length_nil] at this
  omega

theorem reaches_printed (flo : Flonums F) (radix : Radix) (n : Int) (rest : List Char) :
    Reaches (step flo)
      (.number (signChars n ++ paddedChars radix.printed 1 n.natAbs ++ rest) none none (some radix))
      (.digits rest n.natAbs .integer ⟨none, radix, signRead n, .real⟩) := by
  obtain ⟨hne, hds, hvalue⟩ := padded_reads radix n.natAbs
  have h := reaches_integer flo n rest hne hds
  rwa [hvalue] at h

theorem finish_signRead (flo : Flonums F) (n : Int) (q : Rational) :
    finish flo q none (signRead n) = .exact (if n < 0 then ratNegate q else q) := by
  rw [finish, applyExactness, signRead]
  split <;> rfl

theorem stringToNumber_integer (flo : Flonums F) (radix : Radix) (n : Int) :
    stringToNumber flo (signChars n ++ paddedChars radix.printed 1 n.natAbs) (some radix) =
      .ok (some (.real (.exact (.int n)))) := by
  have hr := reaches_printed flo radix n []
  rw [List.append_nil] at hr
  have hn : (if n < 0 then ratNegate (.int n.natAbs) else .int n.natAbs) = Rational.int n := by
    split <;> simp only [ratNegate, Rational.int.injEq] <;> omega
  have hlast : step flo (.digits [] n.natAbs .integer ⟨none, radix, signRead n, .real⟩) =
      .ok (.done (some (.real (finish flo (.int n.natAbs) none (signRead n))))) := rfl
  rw [finish_signRead, hn] at hlast
  exact stringToNumber_of_reaches hr hlast

theorem stringToNumber_ratnum (flo : Flonums F) (radix : Radix) {n d}
    (hq : (Rational.ratnum n d).Canonical) :
    stringToNumber flo (signChars n ++ paddedChars radix.printed 1 n.natAbs ++
      '/' :: paddedChars radix.printed 1 d.natAbs) (some radix) =
        .ok (some (.real (.exact (.ratnum n d)))) := by
  obtain ⟨hd, hgcd⟩ := hq
  obtain ⟨hne, hds, hvalue⟩ := padded_reads radix d.natAbs
  have hr := reaches_printed flo radix n ('/' :: paddedChars radix.printed 1 d.natAbs)
  have hslash : step flo (.digits ('/' :: paddedChars radix.printed 1 d.natAbs) n.natAbs .integer
      ⟨none, radix, signRead n, .real⟩) =
        .ok (.goto (.digits (paddedChars radix.printed 1 d.natAbs) 0
        (.denominator n.natAbs (paddedChars radix.printed 1 d.natAbs))
        ⟨none, radix, signRead n, .real⟩)) := by
    cases radix <;> rfl
  have hdenominator : Reaches (step flo) (.digits (paddedChars radix.printed 1 d.natAbs) 0 _ _) _ :=
    Places.reaches_places (.denominator n.natAbs (paddedChars radix.printed 1 d.natAbs))
      ⟨none, radix, signRead n, .real⟩ (places_digits [] 0 hds)
      (by rintro t rfl; exact Reaches.refl _) [] (List.append_nil _).symm
  rw [hvalue] at hdenominator
  have hdivide : ratDivide (.int n.natAbs) (.int d.natAbs) = .ok (.ratnum n.natAbs d) := by
    have hcanon : (Rational.ratnum n.natAbs d).Canonical := by
      refine ⟨hd, ?_⟩
      rwa [Int.gcd, Int.natAbs_natCast]
    have hne0 : (Rational.int d.natAbs).toRat ≠ 0 := by
      simp only [Rational.toRat]
      exact_mod_cast Int.natAbs_ne_zero.mpr (by omega)
    rw [ratDivide_ok (canonical_int _) (canonical_int _) hne0, ← canon_toRat hcanon]
    simp only [Rational.toRat, show ((d.natAbs : Nat) : Int) = d by omega]
  have hn : (if n < 0 then ratNegate (.ratnum n.natAbs d) else .ratnum n.natAbs d) =
      Rational.ratnum n d := by
    split <;> simp only [ratNegate, Rational.ratnum.injEq, and_true] <;> omega
  have hlength : ([] : List Char).length < (paddedChars radix.printed 1 d.natAbs).length := by
    rw [paddedChars, List.length_map]
    exact List.length_pos_iff.mpr hne
  have hend : step flo (.digits [] d.natAbs
      (.denominator n.natAbs (paddedChars radix.printed 1 d.natAbs))
      ⟨none, radix, signRead n, .real⟩) =
        .ok (.goto (.complex [] (.exact (.ratnum n d)) ⟨none, radix, signRead n, .real⟩)) := by
    rw [step, parseDigits, Goal.continue, afterDenominator, if_pos hlength, finishRational,
      hdivide, ok_bind]
    show Except.ok (Next.goto (State.complex [] (finish flo _ none (signRead n)) _)) = _
    rw [finish_signRead, hn]
  have hlast : step flo (.complex [] (.exact (.ratnum n d)) ⟨none, radix, signRead n, .real⟩) =
      .ok (.done (some (.real (.exact (.ratnum n d))))) := rfl
  exact stringToNumber_of_reaches
    (hr.trans ((hdenominator.trans ((Reaches.refl _).head hend)).head hslash)) hlast

/-- **Exact rationals are printed and read back**: an exact integer is printed as the
numeral without leading zeros of its magnitude behind its sign, whichever of the three
strategies prints it, and the text of an exact rational in a radix that numbers are read
in is read back as the rational. -/
theorem number_text (flo : Flonums F) (r : Arith.Radix) (n : Int) (radix : Radix) (q : Rational)
    (hq : q.Canonical) :
    (∃ chars, intToString n r = .ok (signChars n ++ chars) ∧ IsNumeral r n.natAbs chars) ∧
    (∀ value, fixnumP value → IsNumeral r value (printFixnum r value 0 1 [])) ∧
    (∀ value, ¬fixnumP value →
      IsNumeral r value (printMedium (splitInfo r) (splitInfo_two_le r) value []) ∧
      ∃ chars, makePowerStack r value (splitInfo r).factor (splitInfo_two_le r) []
        (splitInfo r).digits = .ok chars ∧ IsNumeral r value chars) ∧
    ∃ chars, ratToString q radix.printed = .ok chars ∧
      stringToNumber flo chars (some radix) = .ok (some (.real (.exact q))) := by
  refine ⟨⟨_, intToString_eq n r, isNumeral_paddedChars r n.natAbs⟩, ?_, ?_, ?_⟩
  · intro value _
    rw [printFixnum_eq, List.append_nil]
    exact isNumeral_paddedChars r value
  · intro value hbig
    rw [printMedium_eq, List.append_nil, largePrint_ok, paddedChars_leftmost hbig]
    exact ⟨isNumeral_paddedChars r value, _, rfl, isNumeral_paddedChars r value⟩
  · cases q with
    | int n =>
      exact ⟨_, intToString_eq n radix.printed, stringToNumber_integer flo radix n⟩
    | ratnum n d =>
      have hd : 1 < d := hq.1
      refine ⟨_, ?_, stringToNumber_ratnum flo radix hq⟩
      rw [ratToString, intToString_eq, intToString_eq, if_neg (show ¬d < 0 by omega)]
      rfl

theorem number_text_minus_five_thirds :
    ∃ chars, ratToString (.ratnum (-5) 3) Radix.sixteen.printed = .ok chars ∧
      stringToNumber exactFlonums chars (some .sixteen) =
        .ok (some (.real (.exact (.ratnum (-5) 3)))) :=
  (number_text exactFlonums ⟨36, by decide, by decide⟩ (-5) .sixteen (.ratnum (-5) 3)
    (by decide)).2.2.2

end MitScheme.Runtime.NumberParser
