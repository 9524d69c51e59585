import Mathlib.Data.Nat.Digits.Lemmas

/-! # Numerals

Lists of digits with the most significant digit first, as they are written.
A numeral may be padded with zeros to a width; a number cut at a power of the
base is then written as the two parts one behind the other. -/

namespace MitScheme.Lib.Numeral

variable {b k j n q s : Nat}

/-- The digits of `n`, with zeros in front of them up to the width `k`. -/
def padded (b k n : Nat) : List Nat :=
  List.replicate (k - (b.digits n).length) 0 ++ (b.digits n).reverse

def read (b : Nat) (acc : Nat) (ds : List Nat) : Nat := ds.foldl (fun a d => a * b + d) acc

@[simp] theorem padded_zero_zero : padded b 0 0 = [] := by simp [padded]

theorem padded_lt (hb : 1 < b) {d : Nat} (h : d ∈ padded b k n) : d < b := by
  rcases List.mem_append.mp h with hz | hd
  · rw [List.eq_of_mem_replicate hz]
    omega
  · exact Nat.digits_lt_base hb (List.mem_reverse.mp hd)

theorem padded_one (hs : s < b) : padded b 1 s = [s] := by
  rcases Nat.eq_zero_or_pos s with rfl | hpos
  · simp [padded]
  · rw [padded, Nat.digits_of_lt b s (by omega) hs]
    rfl

theorem padded_of_le (hb : 1 < b) (hn : b ^ j ≤ n) (hk : k ≤ j + 1) :
    padded b k n = padded b 0 n := by
  have hlen : j < (b.digits n).length := by
    by_contra hlt
    exact absurd ((Nat.digits_length_le_iff hb n).mp (by omega)) (Nat.not_lt.mpr hn)
  rw [padded, padded, Nat.sub_eq_zero_of_le (by omega), Nat.zero_sub]

theorem head_padded (hn : 0 < n) : (padded b 0 n).head? ≠ some 0 := by
  intro h0
  rw [padded, Nat.zero_sub, List.replicate_zero, List.nil_append, List.head?_reverse] at h0
  have hne : b.digits n ≠ [] := Nat.digits_ne_nil_iff_ne_zero.mpr (by omega)
  rw [List.getLast?_eq_some_getLast hne] at h0
  exact Nat.getLast_digit_ne_zero b (by omega) (Option.some.inj h0)

theorem padded_add (hb : 1 < b) (hs : s < b ^ j) :
    padded b (k + j) (q * b ^ j + s) = padded b k q ++ padded b j s := by
  have hlen : (b.digits s).length ≤ j := (Nat.digits_length_le_iff hb s).mpr hs
  rcases Nat.eq_zero_or_pos q with rfl | hq
  · have hzeros : k + j - (b.digits s).length = k + (j - (b.digits s).length) := by omega
    simp only [zero_mul, zero_add, padded, hzeros, ← List.replicate_append_replicate,
      Nat.digits_zero, List.length_nil, Nat.sub_zero, List.reverse_nil, List.append_nil,
      List.append_assoc]
  · have hdigits : b.digits (q * b ^ j + s) =
        b.digits s ++ List.replicate (j - (b.digits s).length) 0 ++ b.digits q := by
      rw [Nat.digits_append_zeroes_append_digits hb hq, Nat.add_sub_cancel' hlen]
      congr 1
      ring
    have hzeros : k + j - (b.digits (q * b ^ j + s)).length = k - (b.digits q).length := by
      simp only [hdigits, List.length_append, List.length_replicate]
      omega
    rw [padded, hzeros, hdigits, padded, padded]
    simp [List.append_assoc]

theorem padded_last (hb : 1 < b) (hn : 0 < n) (k : Nat) :
    padded b k n = padded b (k - 1) (n / b) ++ [n % b] := by
  have hlt : n % b < b := Nat.mod_lt n (by omega)
  have hn' : n / b * b ^ 1 + n % b = n := by rw [pow_one, Nat.div_add_mod']
  have hcut := padded_add (k := k - 1) (q := n / b) hb (show n % b < b ^ 1 by rwa [pow_one])
  rw [hn', padded_one hlt] at hcut
  rw [← hcut]
  rcases Nat.eq_zero_or_pos k with rfl | hk
  · exact (padded_of_le hb (by rwa [Nat.pow_zero] : b ^ 0 ≤ n) (by omega)).symm
  · rw [Nat.sub_add_cancel hk]

theorem read_append (acc : Nat) (xs ys : List Nat) :
    read b acc (xs ++ ys) = read b (read b acc xs) ys := List.foldl_append

theorem read_reverse (acc : Nat) (ds : List Nat) :
    read b acc ds.reverse = acc * b ^ ds.length + Nat.ofDigits b ds := by
  induction ds with
  | nil => simp [read]
  | cons d ds ih =>
    rw [List.reverse_cons, read_append, ih, Nat.ofDigits_cons]
    simp only [read, List.foldl_cons, List.foldl_nil, List.length_cons, pow_succ]
    ring

theorem read_padded (n : Nat) : read b 0 (padded b k n) = n := by
  have hzeros (m : Nat) : read b 0 (List.replicate m 0) = 0 := by
    induction m with
    | zero => rfl
    | succ m ih => rwa [List.replicate_succ, read, List.foldl_cons, zero_mul, zero_add]
  rw [padded, read_append, hzeros, read_reverse, zero_mul, zero_add, Nat.ofDigits_digits]

end MitScheme.Lib.Numeral
