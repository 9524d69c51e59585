import Mathlib.Data.List.Basic

/-! # Encoding forms

Codes whose words begin by announcing their length, and the encoding forms of Unicode as codes
over bytes. -/

namespace MitScheme.Lib.EncodingForm

section
variable {α β : Type} {Valid : α → Prop} {enc : α → List β} {unit : Nat} {size : List β → Nat}

/-- The first `unit` symbols of a word tell its length. -/
structure Announced (Valid : α → Prop) (enc : α → List β) (unit : Nat) (size : List β → Nat) :
    Prop where
  unit_pos : 0 < unit
  unit_le : ∀ {c}, Valid c → unit ≤ (enc c).length
  size_eq : ∀ {c w}, Valid c → enc c <+: w → size w = (enc c).length
  unit_le_size : ∀ {w}, unit ≤ w.length → unit ≤ size w
  size_prefix : ∀ {v w}, v <+: w → unit ≤ v.length → size w = size v

/-- `w` is the encoding of the valid sequence `cs`. -/
def Decodes (Valid : α → Prop) (enc : α → List β) (w : List β) (cs : List α) : Prop :=
  (∀ c ∈ cs, Valid c) ∧ w = cs.flatMap enc

/-- `w` is the encoding of some valid sequence. -/
def WellFormed (Valid : α → Prop) (enc : α → List β) (w : List β) : Prop :=
  ∃ cs, Decodes Valid enc w cs

theorem Decodes.nil : Decodes Valid enc [] [] := ⟨fun _ h => absurd h List.not_mem_nil, rfl⟩

section
variable (h : Announced Valid enc unit size)
include h

theorem Announced.enc_ne_nil {c} (hc : Valid c) : enc c ≠ [] := fun he => by
  have := h.unit_le hc
  rw [he] at this
  exact absurd this (Nat.not_le.mpr h.unit_pos)

theorem Announced.mono {Valid' : α → Prop} (hv : ∀ c, Valid' c → Valid c) :
    Announced Valid' enc unit size where
  unit_pos := h.unit_pos
  unit_le := fun hc => h.unit_le (hv _ hc)
  size_eq := fun hc => h.size_eq (hv _ hc)
  unit_le_size := h.unit_le_size
  size_prefix := h.size_prefix

theorem Announced.drop_size {c} (hc : Valid c) {w rest} (hw : w = enc c ++ rest) :
    w.drop (size w) = rest := by
  rw [h.size_eq hc ⟨rest, hw.symm⟩, hw, List.drop_left]

theorem Decodes.cases {w cs} (hd : Decodes Valid enc w cs) (hw : w ≠ []) :
    ∃ c cs', cs = c :: cs' ∧ Valid c ∧ enc c <+: w ∧ unit ≤ w.length ∧ size w ≤ w.length ∧
      Decodes Valid enc (w.drop (size w)) cs' := by
  obtain ⟨hvalid, hflat⟩ := hd
  cases cs with
  | nil => exact absurd hflat hw
  | cons c cs =>
    rw [List.flatMap_cons] at hflat
    have hc := hvalid c List.mem_cons_self
    have hpre : enc c <+: w := ⟨_, hflat.symm⟩
    have hlen := hpre.length_le
    refine ⟨c, cs, rfl, hc, hpre, Nat.le_trans (h.unit_le hc) hlen, by rwa [h.size_eq hc hpre],
      fun d hd => hvalid d (List.mem_cons_of_mem c hd), h.drop_size hc hflat⟩

theorem Decodes.cons {w c cs} (hc : Valid c) (hpre : enc c <+: w)
    (hd : Decodes Valid enc (w.drop (size w)) cs) : Decodes Valid enc w (c :: cs) := by
  obtain ⟨rest, hrest⟩ := hpre
  refine ⟨fun d hmem => ?_, ?_⟩
  · rcases List.mem_cons.mp hmem with rfl | hmem
    · exact hc
    · exact hd.1 d hmem
  · have hdrop := hd.2
    rw [h.drop_size hc hrest.symm] at hdrop
    rw [List.flatMap_cons, ← hdrop, hrest]

theorem Decodes.unique (hinj : ∀ c d, Valid c → Valid d → enc c = enc d → c = d) {w cs ds}
    (hc : Decodes Valid enc w cs) (hd : Decodes Valid enc w ds) : cs = ds := by
  induction cs generalizing w ds with
  | nil =>
    cases hds : ds with
    | nil => rfl
    | cons d ds =>
      have hne := h.enc_ne_nil (hd.1 d (hds ▸ List.mem_cons_self))
      have hw := hc.2.symm.trans hd.2
      rw [hds, List.flatMap_nil, List.flatMap_cons] at hw
      exact absurd (List.append_eq_nil_iff.mp hw.symm).1 hne
  | cons c cs ih =>
    have hne := h.enc_ne_nil (hc.1 c List.mem_cons_self)
    have hw : w ≠ [] := fun hw => by
      have hflat := hc.2
      rw [hw, List.flatMap_cons] at hflat
      exact hne (List.append_eq_nil_iff.mp hflat.symm).1
    obtain ⟨c', cs', heq, hvc, hpc, -, -, hcs⟩ := hc.cases h hw
    obtain ⟨d, ds', rfl, hvd, hpd, -, -, hds⟩ := hd.cases h hw
    obtain ⟨rfl, rfl⟩ := List.cons.inj heq
    have hlen := (h.size_eq hvc hpc).symm.trans (h.size_eq hvd hpd)
    have hword := List.prefix_of_prefix_length_le hpc hpd (Nat.le_of_eq hlen)
    rw [hinj c d hvc hvd (hword.eq_of_length hlen), ih hcs hds]

end

end

/-! ## Words in pieces -/

section
variable {α β : Type} {Valid : α → Prop} {enc : α → List β} {unit : Nat} {size : List β → Nat}

/-- `w` is too short to announce a word, or for the word that it announces. -/
def Incomplete (unit : Nat) (size : List β → Nat) (w : List β) : Prop :=
  w.length < unit ∨ w.length < size w

instance (unit : Nat) (size : List β → Nat) (w : List β) : Decidable (Incomplete unit size w) :=
  inferInstanceAs (Decidable (_ ∨ _))

/-- `w` consists of the announced words `ws` and an incomplete rest. -/
inductive Splits (unit : Nat) (size : List β → Nat) : List β → List (List β) → List β → Prop
  | rest {w} : Incomplete unit size w → Splits unit size w [] w
  | word {w ws r} : ¬Incomplete unit size w → Splits unit size (w.drop (size w)) ws r →
      Splits unit size w (w.take (size w) :: ws) r

theorem Splits.exists (h : Announced Valid enc unit size) (w : List β) :
    ∃ ws r, Splits unit size w ws r := by
  induction hn : w.length using Nat.strongRecOn generalizing w with
  | _ n ih =>
    by_cases hw : Incomplete unit size w
    · exact ⟨[], w, .rest hw⟩
    · have hcomplete : unit ≤ w.length ∧ size w ≤ w.length := by
        rw [Incomplete] at hw
        omega
      have hpos := h.unit_pos
      have hsize := h.unit_le_size hcomplete.1
      obtain ⟨ws, r, hsplit⟩ := ih (w.drop (size w)).length
        (by rw [List.length_drop]; omega) (w.drop (size w)) rfl
      exact ⟨_, r, .word hw hsplit⟩

theorem Splits.incomplete {w r ws} (h : Splits unit size w ws r) : Incomplete unit size r := by
  induction h with
  | rest hw => exact hw
  | word _ _ ih => exact ih

theorem Splits.eq_flatten {w r ws} (h : Splits unit size w ws r) : w = ws.flatten ++ r := by
  induction h with
  | rest _ => rfl
  | word _ _ ih =>
    rw [List.flatten_cons, List.append_assoc, ← ih, List.take_append_drop]

theorem Splits.drop_rest {w r ws} (h : Splits unit size w ws r) :
    r.length ≤ w.length ∧ w.drop (w.length - r.length) = r := by
  rw [h.eq_flatten, List.length_append, Nat.add_sub_cancel, List.drop_left]
  exact ⟨Nat.le_add_left .., rfl⟩

theorem Splits.unique {w r r' ws ws'} (h : Splits unit size w ws r)
    (h' : Splits unit size w ws' r') : ws = ws' ∧ r = r' := by
  induction h generalizing ws' with
  | rest hw =>
    cases h' with
    | rest _ => exact ⟨rfl, rfl⟩
    | word hw' _ => exact absurd hw hw'
  | word hw _ ih =>
    cases h' with
    | rest hw' => exact absurd hw' hw
    | word _ hsplit =>
      obtain ⟨hws, hr⟩ := ih hsplit
      exact ⟨by rw [hws], hr⟩

theorem Splits.append (h : Announced Valid enc unit size) {w v r r' ws ws'}
    (hw : Splits unit size w ws r) (hr : Splits unit size (r ++ v) ws' r') :
    Splits unit size (w ++ v) (ws ++ ws') r' := by
  induction hw with
  | rest _ => exact hr
  | @word w ws r hw _ ih =>
    have hcomplete : unit ≤ w.length ∧ size w ≤ w.length := by
      rw [Incomplete] at hw
      omega
    have hsize : size (w ++ v) = size w := h.size_prefix (List.prefix_append w v) hcomplete.1
    have hword : Splits unit size (w ++ v) ((w ++ v).take (size (w ++ v)) :: (ws ++ ws')) r' := by
      refine .word ?_ ?_
      · rw [Incomplete, List.length_append, hsize]
        omega
      · rw [hsize, List.drop_append_of_le_length hcomplete.2]
        exact ih hr
    rwa [hsize, List.take_append_of_le_length hcomplete.2] at hword

end

/-! ## Unicode -/

def Scalar (c : Nat) : Prop := c < 0xD800 ∨ 0xE000 ≤ c ∧ c < 0x110000

instance (c : Nat) : Decidable (Scalar c) := inferInstanceAs (Decidable (_ ∨ _))

def bytes (l : List Nat) : List UInt8 := l.map UInt8.ofNat

@[simp] theorem bytes_length (l : List Nat) : (bytes l).length = l.length := List.length_map ..

theorem bytes_append (l m : List Nat) : bytes (l ++ m) = bytes l ++ bytes m := List.map_append

def values (w : List UInt8) : List Nat := w.map UInt8.toNat

theorem values_bytes {l} (h : ∀ v ∈ l, v < 256) : values (bytes l) = l := by
  rw [values, bytes, List.map_map]
  refine (List.map_congr_left fun v hv => ?_).trans (List.map_id l)
  rw [Function.comp_apply, UInt8.toNat_ofNat', Nat.mod_eq_of_lt (h v hv)]
  rfl

theorem bytes_prefix_iff {l} (h : ∀ v ∈ l, v < 256) {w} : bytes l <+: w ↔ l <+: values w := by
  constructor
  · rintro ⟨rest, rfl⟩
    refine ⟨values rest, ?_⟩
    rw [values, values, List.map_append]
    exact congrArg (· ++ _) (values_bytes h).symm
  · rintro ⟨rest, hrest⟩
    refine ⟨w.drop l.length, ?_⟩
    have htake : bytes l = w.take l.length := by
      refine List.map_injective_iff.mpr (fun _ _ => UInt8.toNat_inj.mp) ?_
      show values (bytes l) = List.map _ _
      rw [values_bytes h, List.map_take, ← values, ← hrest, List.take_left]
    rw [htake, List.take_append_drop]

def utf8Values (c : Nat) : List Nat :=
  if c < 0x80 then [c]
  else if c < 0x800 then [0xC0 + c / 0x40, 0x80 + c % 0x40]
  else if c < 0x10000 then [0xE0 + c / 0x1000, 0x80 + c / 0x40 % 0x40, 0x80 + c % 0x40]
  else [0xF0 + c / 0x40000, 0x80 + c / 0x1000 % 0x40, 0x80 + c / 0x40 % 0x40, 0x80 + c % 0x40]

def utf16Units (c : Nat) : List Nat :=
  if c < 0x10000 then [c]
  else [0xD800 + (c - 0x10000) / 0x400, 0xDC00 + (c - 0x10000) % 0x400]

inductive Order
  | big
  | little

def Order.two : Order → Nat → List Nat
  | .big, u => [u / 0x100, u % 0x100]
  | .little, u => [u % 0x100, u / 0x100]

def Order.four : Order → Nat → List Nat
  | .big, u => [u / 0x1000000, u / 0x10000 % 0x100, u / 0x100 % 0x100, u % 0x100]
  | .little, u => [u % 0x100, u / 0x100 % 0x100, u / 0x10000 % 0x100, u / 0x1000000]

def utf8 (c : Nat) : List UInt8 := bytes (utf8Values c)

def utf16 (order : Order) (c : Nat) : List UInt8 := bytes ((utf16Units c).flatMap order.two)

def utf32 (order : Order) (c : Nat) : List UInt8 := bytes (order.four c)

/-! ## What the first unit announces -/

/-- The length that the first byte announces, one byte where no character starts so. -/
def utf8Size : List UInt8 → Nat
  | [] => 1
  | b :: _ =>
    if b.toNat < 0x80 then 1
    else if 0xC2 ≤ b.toNat ∧ b.toNat ≤ 0xDF then 2
    else if 0xE0 ≤ b.toNat ∧ b.toNat ≤ 0xEF then 3
    else if 0xF0 ≤ b.toNat ∧ b.toNat ≤ 0xF4 then 4
    else 1

def Order.unit : Order → UInt8 → UInt8 → Nat
  | .big, b0, b1 => b0.toNat * 0x100 + b1.toNat
  | .little, b0, b1 => b1.toNat * 0x100 + b0.toNat

def Order.word : Order → UInt8 → UInt8 → UInt8 → UInt8 → Nat
  | .big, b0, b1, b2, b3 =>
    b0.toNat * 0x1000000 + b1.toNat * 0x10000 + b2.toNat * 0x100 + b3.toNat
  | .little, b0, b1, b2, b3 =>
    b3.toNat * 0x1000000 + b2.toNat * 0x10000 + b1.toNat * 0x100 + b0.toNat

def utf16Size (order : Order) : List UInt8 → Nat
  | b0 :: b1 :: _ => if 0xD800 ≤ order.unit b0 b1 ∧ order.unit b0 b1 < 0xDC00 then 4 else 2
  | _ => 2

def utf32Size (_ : List UInt8) : Nat := 4

theorem utf8Values_lt {c} (h : Scalar c) : ∀ v ∈ utf8Values c, v < 256 := by
  rw [Scalar] at h
  rw [utf8Values]
  split_ifs <;> simp only [List.mem_cons, List.not_mem_nil, or_false, forall_eq_or_imp, forall_eq] <;>
    omega

theorem utf8_prefix_iff {c} (h : Scalar c) {w} :
    utf8 c <+: w ↔ utf8Values c <+: values w := bytes_prefix_iff (utf8Values_lt h)

theorem utf8_announced : Announced Scalar utf8 1 utf8Size where
  unit_pos := Nat.one_pos
  unit_le := by
    intro c _
    rw [utf8, bytes_length, utf8Values]
    split_ifs <;> simp
  size_eq := by
    intro c w hc hpre
    rw [utf8_prefix_iff hc, utf8Values] at hpre
    rw [utf8, bytes_length, utf8Values]
    rw [Scalar] at hc
    cases w with
    | nil =>
      split_ifs at hpre <;> simp [values] at hpre
    | cons b w =>
      rw [utf8Size]
      split_ifs at hpre ⊢ <;>
        simp only [values, List.map_cons, List.cons_prefix_cons] at hpre <;>
        simp only [List.length_cons, List.length_nil] <;> omega
  unit_le_size := by
    intro w _
    cases w with
    | nil => exact Nat.le_refl 1
    | cons b w =>
      rw [utf8Size]
      split_ifs <;> omega
  size_prefix := by
    intro v w hp hlen
    cases v with
    | nil => exact absurd hlen (by simp)
    | cons b v =>
      obtain ⟨rest, rfl⟩ := hp
      rfl

/-! ## Units of several bytes -/

theorem Order.two_lt {order : Order} {u} (h : u < 0x10000) : ∀ v ∈ order.two u, v < 256 := by
  cases order <;> simp only [Order.two, List.mem_cons, List.not_mem_nil, or_false, forall_eq_or_imp,
    forall_eq] <;> omega

theorem Order.four_lt {order : Order} {u} (h : u < 0x100000000) : ∀ v ∈ order.four u, v < 256 := by
  cases order <;> simp only [Order.four, List.mem_cons, List.not_mem_nil, or_false,
    forall_eq_or_imp, forall_eq] <;> omega

variable (order : Order)

theorem Order.unit_lt (b0 b1 : UInt8) : order.unit b0 b1 < 0x10000 := by
  have h0 := b0.toNat_lt
  have h1 := b1.toNat_lt
  cases order <;> simp only [Order.unit] <;> omega

theorem Order.two_prefix_iff {order : Order} {u} (h : u < 0x10000) {w l} (hl : ∀ v ∈ l, v < 256) :
    bytes (order.two u ++ l) <+: w ↔
      ∃ b0 b1 rest, w = b0 :: b1 :: rest ∧ order.unit b0 b1 = u ∧ bytes l <+: rest := by
  have hall : ∀ v ∈ order.two u ++ l, v < 256 := fun v hv =>
    (List.mem_append.mp hv).elim (order.two_lt h v) (hl v)
  rw [bytes_prefix_iff hall]
  match w with
  | [] => cases order <;> simp [values, Order.two]
  | [b] => cases order <;> simp [values, Order.two]
  | b0 :: b1 :: rest =>
    have h0 := b0.toNat_lt
    have h1 := b1.toNat_lt
    have hsplit : order.two u ++ l <+: values (b0 :: b1 :: rest) ↔
        order.unit b0 b1 = u ∧ l <+: values rest := by
      cases order <;> simp only [Order.two, Order.unit, values, List.map_cons, List.cons_append,
        List.nil_append, List.cons_prefix_cons] <;> rw [← and_assoc] <;>
        refine and_congr_left fun _ => ?_ <;> omega
    rw [hsplit, ← bytes_prefix_iff hl]
    constructor
    · rintro ⟨hu, hrest⟩
      exact ⟨b0, b1, rest, rfl, hu, hrest⟩
    · rintro ⟨c0, c1, rest', heq, hu, hrest⟩
      simp only [List.cons.injEq] at heq
      obtain ⟨rfl, rfl, rfl⟩ := heq
      exact ⟨hu, hrest⟩

theorem Order.four_prefix_iff {order : Order} {u} (h : u < 0x100000000) {w} :
    bytes (order.four u) <+: w ↔
      ∃ b0 b1 b2 b3 rest, w = b0 :: b1 :: b2 :: b3 :: rest ∧ order.word b0 b1 b2 b3 = u := by
  rw [bytes_prefix_iff (order.four_lt h)]
  match w with
  | [] => cases order <;> simp [values, Order.four]
  | [b] => cases order <;> simp [values, Order.four]
  | [b0, b1] => cases order <;> simp [values, Order.four]
  | [b0, b1, b2] => cases order <;> simp [values, Order.four]
  | b0 :: b1 :: b2 :: b3 :: rest =>
    have h0 := b0.toNat_lt
    have h1 := b1.toNat_lt
    have h2 := b2.toNat_lt
    have h3 := b3.toNat_lt
    have hword : order.four u <+: values (b0 :: b1 :: b2 :: b3 :: rest) ↔
        order.word b0 b1 b2 b3 = u := by
      cases order <;> simp only [Order.four, Order.word, values, List.map_cons,
        List.cons_prefix_cons, List.nil_prefix, and_true] <;> omega
    rw [hword]
    constructor
    · intro hu
      exact ⟨b0, b1, b2, b3, rest, rfl, hu⟩
    · rintro ⟨c0, c1, c2, c3, rest', heq, hu⟩
      simp only [List.cons.injEq] at heq
      obtain ⟨rfl, rfl, rfl, rfl, rfl⟩ := heq
      exact hu

theorem utf16_prefix_iff {order : Order} {c} (h : Scalar c) {w} :
    utf16 order c <+: w ↔ ∃ b0 b1 rest, w = b0 :: b1 :: rest ∧
      if c < 0x10000 then order.unit b0 b1 = c
      else order.unit b0 b1 = 0xD800 + (c - 0x10000) / 0x400 ∧
        ∃ b2 b3 rest', rest = b2 :: b3 :: rest' ∧
          order.unit b2 b3 = 0xDC00 + (c - 0x10000) % 0x400 := by
  rw [Scalar] at h
  rw [utf16, utf16Units]
  by_cases hc : c < 0x10000
  · simp only [if_pos hc, List.flatMap_cons, List.flatMap_nil]
    rw [order.two_prefix_iff hc (by simp)]
    simp only [bytes, List.map_nil, List.nil_prefix, and_true]
  · simp only [if_neg hc, List.flatMap_cons, List.flatMap_nil]
    rw [order.two_prefix_iff (by omega) (by simpa using order.two_lt (by omega))]
    refine exists_congr fun b0 => exists_congr fun b1 => exists_congr fun rest => ?_
    rw [order.two_prefix_iff (by omega) (by simp)]
    simp only [bytes, List.map_nil, List.nil_prefix, and_true]

theorem utf16_length (c : Nat) : (utf16 order c).length = if c < 0x10000 then 2 else 4 := by
  rw [utf16, bytes_length, utf16Units]
  cases order <;> split_ifs <;> rfl

theorem utf16_announced : Announced Scalar (utf16 order) 2 (utf16Size order) where
  unit_pos := by omega
  unit_le := by
    intro c _
    rw [utf16_length]
    split_ifs <;> omega
  size_eq := by
    intro c w hc hpre
    obtain ⟨b0, b1, rest, rfl, hunit⟩ := (utf16_prefix_iff hc).mp hpre
    rw [Scalar] at hc
    rw [utf16_length, utf16Size]
    by_cases hlt : c < 0x10000
    · rw [if_pos hlt] at hunit ⊢
      exact if_neg (by omega)
    · rw [if_neg hlt] at hunit ⊢
      exact if_pos (by omega)
  unit_le_size := by
    intro w _
    rw [utf16Size.eq_def]
    split
    · split_ifs <;> omega
    · exact Nat.le_refl 2
  size_prefix := by
    intro v w hp hlen
    match v with
    | [] | [_] => exact absurd hlen (by simp)
    | b0 :: b1 :: v =>
      obtain ⟨rest, rfl⟩ := hp
      rfl

theorem utf32_length (c : Nat) : (utf32 order c).length = 4 := by
  rw [utf32, bytes_length]
  cases order <;> rfl

theorem utf32_prefix_iff {order : Order} {c} (h : Scalar c) {w} :
    utf32 order c <+: w ↔
      ∃ b0 b1 b2 b3 rest, w = b0 :: b1 :: b2 :: b3 :: rest ∧ order.word b0 b1 b2 b3 = c := by
  rw [Scalar] at h
  exact order.four_prefix_iff (by omega)

theorem utf32_announced : Announced Scalar (utf32 order) 4 utf32Size where
  unit_pos := by omega
  unit_le := fun _ => Nat.le_of_eq (utf32_length order _).symm
  size_eq := fun _ _ => (utf32_length order _).symm
  unit_le_size := fun _ => Nat.le_refl 4
  size_prefix := fun _ _ => rfl

theorem utf32_injective {order c d} (hc : Scalar c) (hd : Scalar d)
    (h : utf32 order c = utf32 order d) : c = d := by
  obtain ⟨b0, b1, b2, b3, rest, hw, hword⟩ := (utf32_prefix_iff hc).mp (List.prefix_refl _)
  obtain ⟨c0, c1, c2, c3, rest', hw', hword'⟩ := (utf32_prefix_iff hd).mp (List.prefix_refl _)
  rw [hw, hw'] at h
  simp only [List.cons.injEq] at h
  obtain ⟨rfl, rfl, rfl, rfl, -⟩ := h
  exact hword.symm.trans hword'

end MitScheme.Lib.EncodingForm
