import Mathlib.Data.Vector.Basic

/-! # Sponges

The absorbing half of a sponge over an alphabet with an operation that adds a symbol to a symbol of
the state: block by block, and one symbol at a time with the place of the next symbol. -/

namespace MitScheme.Lib.Sponge

variable {α : Type} {b : Nat} {op : α → α → α} {f : Vector α b → Vector α b} {r pos : Nat}

/-! ## Blocks -/

/-- The block added to the symbols of the state from `pos` on. -/
def addAt (op : α → α → α) (state : Vector α b) (pos : Nat) (block : List α) : Vector α b :=
  Vector.ofFn fun i =>
    if pos ≤ i then (block[i.val - pos]?).elim state[i] (op state[i]) else state[i]

theorem getElem_addAt (state : Vector α b) (pos : Nat) (block : List α) (i : Nat) (hi : i < b) :
    (addAt op state pos block)[i] =
      if pos ≤ i then (block[i - pos]?).elim state[i] (op state[i]) else state[i] := by
  simp [addAt]

@[simp] theorem addAt_nil (state : Vector α b) (pos : Nat) : addAt op state pos [] = state := by
  ext i hi
  simp [getElem_addAt]

theorem addAt_append (op : α → α → α) (state : Vector α b) (pos : Nat) (x y : List α) :
    addAt op (addAt op state pos x) (pos + x.length) y = addAt op state pos (x ++ y) := by
  ext i hi
  simp only [getElem_addAt]
  rcases Nat.lt_or_ge i pos with hlt | hge
  · rw [if_neg (by omega), if_neg (by omega), if_neg (by omega)]
  · rw [if_pos hge, if_pos hge]
    rcases Nat.lt_or_ge i (pos + x.length) with hlt | hge'
    · rw [if_neg (by omega), List.getElem?_append_left (by omega)]
    · have hnone : x[i - pos]? = none := List.getElem?_eq_none (by omega)
      rw [if_pos hge', List.getElem?_append_right (by omega), hnone, Option.elim_none, Nat.sub_sub]

/-- The state after the blocks of a message, each added at the start of the state. -/
def absorbBlocks (op : α → α → α) (f : Vector α b → Vector α b) (r : Nat) (state : Vector α b)
    (message : List α) : Vector α b :=
  (List.range (message.length / r)).foldl
    (fun state k => f (addAt op state 0 ((message.drop (k * r)).take r))) state

theorem absorbBlocks_append (hr : 0 < r) (state : Vector α b) (block rest : List α)
    (hblock : block.length = r) :
    absorbBlocks op f r state (block ++ rest) =
      absorbBlocks op f r (f (addAt op state 0 block)) rest := by
  have hcount : (block ++ rest).length / r = rest.length / r + 1 := by
    rw [List.length_append, hblock, Nat.add_div_left _ hr]
  have hdrop (k : Nat) : (block ++ rest).drop ((k + 1) * r) = rest.drop (k * r) := by
    rw [List.drop_append, List.drop_eq_nil_of_le (by rw [Nat.succ_mul]; omega), List.nil_append,
      hblock, Nat.succ_mul, Nat.add_sub_cancel]
  rw [absorbBlocks, hcount, List.range_succ_eq_map, List.foldl_cons, List.foldl_map, Nat.zero_mul,
    List.drop_zero, List.take_left' hblock]
  simp only [Nat.succ_eq_add_one, hdrop]
  rfl

/-! ## Symbols -/

/-- The state and the place of the next symbol after one more symbol. -/
def absorbSymbol (op : α → α → α) (f : Vector α b → Vector α b) (r : Nat)
    (s : Vector α b × Nat) (x : α) : Vector α b × Nat :=
  let state := addAt op s.1 s.2 [x]
  if s.2 + 1 = r then (f state, 0) else (state, s.2 + 1)

def absorb (op : α → α → α) (f : Vector α b → Vector α b) (r : Nat) (s : Vector α b × Nat)
    (message : List α) : Vector α b × Nat :=
  message.foldl (absorbSymbol op f r) s

@[simp] theorem absorb_nil (s : Vector α b × Nat) : absorb op f r s [] = s := rfl

theorem absorb_append (s : Vector α b × Nat) (x y : List α) :
    absorb op f r s (x ++ y) = absorb op f r (absorb op f r s x) y := List.foldl_append

theorem absorb_unfilled (op : α → α → α) (f : Vector α b → Vector α b) (state : Vector α b)
    (pos : Nat) (message : List α) (h : pos + message.length < r) :
    absorb op f r (state, pos) message = (addAt op state pos message, pos + message.length) := by
  induction message generalizing state pos with
  | nil => simp
  | cons x message ih =>
    rw [List.length_cons] at h
    have hstep : absorbSymbol op f r (state, pos) x = (addAt op state pos [x], pos + 1) :=
      if_neg (by dsimp only; omega)
    rw [absorb, List.foldl_cons, hstep, ← absorb, ih _ _ (by omega), List.length_cons]
    have happend := addAt_append op state pos [x] message
    rw [List.length_singleton, List.singleton_append] at happend
    rw [happend, Nat.add_right_comm, Nat.add_assoc]

theorem absorb_filled (op : α → α → α) (f : Vector α b → Vector α b) (state : Vector α b)
    (message : List α) (hpos : message ≠ [])
    (h : pos + message.length = r) :
    absorb op f r (state, pos) message = (f (addAt op state pos message), 0) := by
  have hlen := List.length_pos_iff.mpr hpos
  have hlen' : message.dropLast.length = message.length - 1 := List.length_dropLast
  have hinit : absorb op f r (state, pos) message.dropLast =
      (addAt op state pos message.dropLast, pos + message.dropLast.length) :=
    absorb_unfilled _ _ _ _ _ (by omega)
  have hlast : absorbSymbol op f r (addAt op state pos message.dropLast,
      pos + message.dropLast.length) (message.getLast hpos) =
        (f (addAt op state pos message), 0) := by
    rw [absorbSymbol, if_pos (by dsimp only; omega), addAt_append, List.dropLast_append_getLast]
  conv_lhs => rw [← List.dropLast_append_getLast hpos]
  rw [absorb_append, hinit, absorb, List.foldl_cons, List.foldl_nil, hlast]

theorem absorb_blocks (op : α → α → α) (f : Vector α b → Vector α b) (hr : 0 < r) (state : Vector α b) (message : List α)
    (hdvd : r ∣ message.length) :
    absorb op f r (state, 0) message = (absorbBlocks op f r state message, 0) := by
  obtain ⟨n, hn⟩ := hdvd
  induction n generalizing state message with
  | zero =>
    rw [Nat.mul_zero, List.length_eq_zero_iff] at hn
    subst hn
    rw [absorbBlocks, List.length_nil, Nat.zero_div]
    rfl
  | succ n ih =>
    rw [Nat.mul_succ] at hn
    have hlen : (message.take r).length = r := by rw [List.length_take]; omega
    have hne : message.take r ≠ [] := fun h => by rw [h] at hlen; simp at hlen; omega
    rw [← List.take_append_drop r message, absorb_append,
      absorb_filled _ _ _ _ hne (by rw [hlen, Nat.zero_add]), absorbBlocks_append hr _ _ _ hlen,
      ih _ _ (by rw [List.length_drop]; omega)]

theorem absorb_pos (s : Vector α b × Nat) (message : List α) (h : s.2 < r) :
    (absorb op f r s message).2 = (s.2 + message.length) % r := by
  induction message generalizing s with
  | nil => rw [absorb_nil, List.length_nil, Nat.add_zero, Nat.mod_eq_of_lt h]
  | cons x message ih =>
    have hstep : (absorbSymbol op f r s x).2 = (s.2 + 1) % r := by
      rw [absorbSymbol]
      split_ifs with hfull
      · rw [hfull, Nat.mod_self]
      · rw [Nat.mod_eq_of_lt (by omega)]
    have hlt : (absorbSymbol op f r s x).2 < r := hstep ▸ Nat.mod_lt _ (by omega)
    rw [absorb, List.foldl_cons, ← absorb, ih _ hlt, hstep, Nat.mod_add_mod, List.length_cons]
    congr 1
    omega

end MitScheme.Lib.Sponge
