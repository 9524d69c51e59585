import Mathlib.Algebra.BigOperators.Group.Finset.Basic
import MitScheme.Microcode.GcHeap

/-! # The garbage collector: what a scan keeps

The invariant of a collection. Every object is as it was, or has a copy in tospace and a broken
heart that leads to it. The words of the copies before the scan are translated, the words after
it are those of the heap, and the rest of tospace can be read word by word. -/

namespace MitScheme.Microcode.GcLoop

variable {c : Config}

/-! ## Heaps -/

section
variable {h : Layout}

theorem Layout.Field.range {a n x} (hf : h.Field c a n x) : a ≤ x ∧ x < a + n := by
  induction hf with
  | here _ => omega
  | word _ _ ih => omega
  | skip _ _ _ ih => omega

theorem Layout.field_word {a n x} (hs : scansWord (h.view c a) = true) :
    h.Field c a (n + 1) x ↔ x = a ∨ h.Field c (a + 1) n x := by
  constructor
  · intro hf
    cases hf with
    | here _ => exact .inl rfl
    | word _ hf => exact .inr hf
    | skip hnmv _ _ =>
      rw [hnmv] at hs
      exact absurd hs Bool.false_ne_true
  · rintro (rfl | hf)
    · exact .here hs
    · exact .word hs hf

theorem Layout.field_skip {a n d x} (hnmv : h.view c a = ⟨.manifestNmVector, d⟩) :
    h.Field c a (1 + d + n) x ↔ h.Field c (a + 1 + d) n x := by
  refine ⟨fun hf => ?_, .skip hnmv rfl⟩
  generalize hm : 1 + d + n = m at hf
  cases hf with
  | here hs =>
    rw [hnmv] at hs
    exact absurd hs Bool.false_ne_true
  | word hs _ =>
    rw [hnmv] at hs
    exact absurd hs Bool.false_ne_true
  | skip hnmv' hm' hf =>
    cases hnmv.symm.trans hnmv'
    obtain rfl := Nat.add_left_cancel (hm.trans hm')
    exact hf

theorem Layout.size_of_ephemeron {b} (hb : h.shape b = some .ephemeron) :
    h.size b = some ephemeronSize := by
  rw [Layout.size, hb]
  rfl

theorem Layout.Words.wordOk {a n x} (hw : h.Words c a n) (hf : h.Field c a n x) :
    h.WordOk c (h.view c x) := by
  induction hf with
  | here hs =>
    cases hw with
    | word hok _ => exact hok
    | skip hnmv _ _ =>
      rw [hnmv] at hs
      exact absurd hs Bool.false_ne_true
  | word hs _ ih =>
    cases hw with
    | word _ hw => exact ih hw
    | skip hnmv _ _ =>
      rw [hnmv] at hs
      exact absurd hs Bool.false_ne_true
  | skip hnmv hm _ ih =>
    cases hw with
    | nil => omega
    | word hok _ =>
      rw [hnmv] at hok
      exact absurd hok.scans Bool.false_ne_true
    | skip hnmv' hm' hw =>
      cases hnmv.symm.trans hnmv'
      obtain rfl := Nat.add_left_cancel (hm.symm.trans hm')
      exact ih hw

end

variable (h : Heap c)

theorem Heap.unique {b n b' n' x} (hb : h.size b = some n) (hb' : h.size b' = some n')
    (hx : b ≤ x ∧ x < b + n) (hx' : b' ≤ x ∧ x < b' + n') : b = b' := by
  rcases Nat.lt_trichotomy b b' with hlt | heq | hlt
  · have := h.disjoint b n b' n' hb hb' hlt
    omega
  · exact heq
  · have := h.disjoint b' n' b n hb' hb hlt
    omega

theorem Heap.visited_field {b n a} (hb : h.size b = some n) (ha : b ≤ a ∧ a < b + n)
    (hv : h.Visited c a) : h.Field c b n a := by
  obtain ⟨b', n', hb', hf⟩ := hv
  obtain rfl := h.unique hb hb' ha hf.range
  rwa [Option.some.inj (hb.symm.trans hb')]

theorem Heap.head_not_heart {b n} (hb : h.size b = some n) :
    (h.memory b).isBrokenHeart = false := by
  obtain ⟨hpos, -⟩ := h.inside b n hb
  have hview : h.view c b = h.memory b ∨ h.shape b = some .weakPair := by
    rw [Layout.view]
    split
    · rename_i hweak
      exact .inr hweak.1
    · exact .inl rfl
  have hscans : ∀ w, scansWord w = true → w.isBrokenHeart = false := by
    intro w hw
    rw [Object.isBrokenHeart, decide_eq_false_iff_not]
    intro htype
    rw [scansWord, htype] at hw
    exact absurd hw Bool.false_ne_true
  rcases hview with hview | hweak
  · cases h.words b n hb with
    | nil => omega
    | word hok _ => exact hview ▸ hscans _ hok.scans
    | skip hnmv _ _ =>
      rw [hview] at hnmv
      rw [hnmv]
      rfl
  · exact hscans _ (h.weakCar b hweak).scans

/-! ## The invariant -/

/-- The object at `d` has been copied. -/
def Forwarded (memory : Nat → Object) (d : Nat) : Prop := (memory d).isBrokenHeart = true

theorem Forwarded.congr {memory memory' : Nat → Object} {d} (hf : Forwarded memory d)
    (hsame : memory' d = memory d) : Forwarded memory' d := by
  rw [Forwarded, hsame]
  exact hf

/-- A word with the address of the copy in place of that of the object. -/
def translate (c : Config) (memory : Nat → Object) (w : Object) : Object :=
  if (pointerShape w).isSome ∧ c.inFromspace w.datum then w.newAddress (memory w.datum).datum
  else w

/-- The object at `b`, of `n` words, has its copy at index `i` of tospace. `origin` leads from
an index to the address that the word there was copied from. -/
structure Copy (c : Config) (memory : Nat → Object) (origin : Nat → Option Nat) (b n i : Nat) :
    Prop where
  heart : memory b = makeBrokenHeart (c.newspaceStart + i)
  origin : ∀ j < n, origin (i + j) = some (b + j)

/-- The word at `a` is of an ephemeron that waits for its key. -/
def Waits (D : Nat → Prop) (a : Nat) : Prop := ∃ b, D b ∧ b ≤ a ∧ a < b + ephemeronSize

/-- The rest of tospace, from an index on, as the scan will read it. -/
inductive Tiles (h : Heap c) (D : Nat → Prop) (origin : Nat → Option Nat) (next : Nat) :
    Nat → Prop
  | nil : Tiles h D origin next next
  | pad {i : Nat} : origin i = none → Tiles h D origin next (i + 1) → Tiles h D origin next i
  | word {i a : Nat} : origin i = some a → ¬Waits D a → h.Visited c a →
    h.WordOk c (h.view c a) → Tiles h D origin next (i + 1) → Tiles h D origin next i
  | skip {i a d : Nat} : (∀ j ≤ d, origin (i + j) = some (a + j) ∧ ¬h.Visited c (a + j)) →
    ¬Waits D a → h.view c a = ⟨.manifestNmVector, d⟩ → Tiles h D origin next (i + 1 + d) →
    Tiles h D origin next i
  | waits {i b : Nat} : (∀ j < ephemeronSize, origin (i + j) = some (b + j)) → D b →
    Tiles h D origin next (i + ephemeronSize) → Tiles h D origin next i

/-- The state of a collection that has scanned tospace up to `scan`. Copied objects are in `L`,
and `D` are the ephemerons that wait. -/
structure Inv (h : Heap c) (L D : Nat → Prop) (s : State) (origin : Nat → Option Nat)
    (scan : Nat) : Prop where
  sync : s.newspaceNext = c.newspaceStart + s.tospaceNext
  object : ∀ b n, h.size b = some n →
    (∀ j < n, s.memory (b + j) = h.memory (b + j)) ∨ ∃ i, Copy c s.memory origin b n i
  owner : ∀ i a, origin i = some a → i < s.tospaceNext ∧
    ∃ b n k, h.size b = some n ∧ Copy c s.memory origin b n k ∧ k ≤ i ∧ i < k + n ∧ a + k = b + i
  pad : ∀ i < s.tospaceNext, origin i = none → s.tospace i = ⟨.manifestNmVector, 0⟩
  fresh : ∀ i a, origin i = some a → ¬Waits D a → scan ≤ i ∨ ¬h.Visited c a →
    s.tospace i = h.view c a
  done : ∀ i a, origin i = some a → ¬Waits D a → i < scan → h.Visited c a →
    s.tospace i = translate c s.memory (h.view c a) ∧
      ∀ d, Layout.Refers c (h.view c a) d → Forwarded s.memory d
  tiles : Tiles h D origin s.tospaceNext scan
  live : ∀ b n, h.size b = some n → Forwarded s.memory b → L b
  edges : ∀ i a d, origin i = some a → ¬Waits D a → h.Visited c a →
    Layout.Refers c (h.view c a) d → L d
  waiting : ∀ b, D b → h.shape b = some .ephemeron ∧ Forwarded s.memory b
  waits : ∀ i b, origin i = some b → D b → s.tospace i = unmarkedEphemeronManifest

variable {h} {L D : Nat → Prop} {s s' : State} {origin origin' : Nat → Option Nat}
  {scan next b n : Nat}

theorem Tiles.le {i} (ht : Tiles h D origin next i) : i ≤ next := by
  induction ht with
  | nil => exact Nat.le_refl _
  | pad _ _ ih => omega
  | word _ _ _ _ _ ih => omega
  | skip _ _ _ _ ih => omega
  | waits _ _ _ ih => omega

theorem Tiles.append {D' : Nat → Prop} {next' i} (ht : Tiles h D origin next i)
    (hD : ∀ x, D x → D' x) (hwait : ∀ i a, origin i = some a → ¬Waits D a → ¬Waits D' a)
    (hsame : ∀ i < next, origin' i = origin i) (hmore : Tiles h D' origin' next' next) :
    Tiles h D' origin' next' i := by
  induction ht with
  | nil => exact hmore
  | pad ho ht ih =>
    refine .pad ?_ ih
    rw [hsame _ (Nat.lt_of_succ_le ht.le)]
    exact ho
  | word ho hw hv hok ht ih =>
    refine .word ?_ (hwait _ _ ho hw) hv hok ih
    rw [hsame _ (Nat.lt_of_succ_le ht.le)]
    exact ho
  | skip ho hw hv ht ih =>
    refine .skip (fun j hj => ?_) (hwait _ _ (ho 0 (Nat.zero_le _)).1 hw) hv ih
    rw [hsame _ (by have := ht.le; omega)]
    exact ho j hj
  | waits ho hb ht ih =>
    refine .waits (fun j hj => ?_) (hD _ hb) ih
    rw [hsame _ (by have := ht.le; omega)]
    exact ho j hj

theorem Layout.Words.tiles {a n i} (hw : h.Words c a n)
    (hv : ∀ x, a ≤ x → x < a + n → (h.Visited c x ↔ h.Field c a n x))
    (hwait : ∀ x, a ≤ x → x < a + n → ¬Waits D x) (ho : ∀ j < n, origin (i + j) = some (a + j))
    (hrest : Tiles h D origin next (i + n)) : Tiles h D origin next i := by
  induction hw generalizing i with
  | nil a => exact hrest
  | @word a n hok hw ih =>
    refine .word (ho 0 (Nat.succ_pos n)) (hwait _ (Nat.le_refl _) (by omega))
      ((hv a (Nat.le_refl _) (by omega)).mpr (.here hok.scans)) hok ?_
    refine ih (fun x hx hlt => ?_) (fun x _ _ => hwait x (by omega) (by omega))
      (fun j hj => ?_) ?_
    · rw [hv x (by omega) (by omega), Layout.field_word hok.scans, or_iff_right (by omega)]
    · rw [Nat.add_assoc, Nat.add_assoc, Nat.add_comm 1 j]
      exact ho (j + 1) (by omega)
    · rwa [Nat.add_assoc, Nat.add_comm 1 n]
  | @skip a n m d hnmv hm hw ih =>
    subst hm
    refine .skip (fun j hj => ⟨ho j (by omega), ?_⟩) (hwait _ (Nat.le_refl _) (by omega)) hnmv ?_
    · rw [hv _ (by omega) (by omega), Layout.field_skip hnmv]
      intro hf
      have := hf.range
      omega
    · refine ih (fun x hx hlt => ?_) (fun x _ _ => hwait x (by omega) (by omega))
        (fun j hj => ?_) ?_
      · rw [hv x (by omega) (by omega), Layout.field_skip hnmv]
      · have := ho (1 + d + j) (by omega)
        rwa [← Nat.add_assoc, ← Nat.add_assoc, ← Nat.add_assoc, ← Nat.add_assoc] at this
      · rwa [Nat.add_assoc i, Nat.add_assoc i]

theorem Inv.forwarded_iff (inv : Inv h L D s origin scan) (hb : h.size b = some n) :
    Forwarded s.memory b ↔ ∃ i, Copy c s.memory origin b n i := by
  constructor
  · intro hf
    refine (inv.object b n hb).resolve_left fun hsame => ?_
    have hhead := hsame 0 (h.inside b n hb).1
    rw [Nat.add_zero] at hhead
    rw [Forwarded, hhead, h.head_not_heart hb] at hf
    exact Bool.false_ne_true hf
  · rintro ⟨i, hc⟩
    rw [Forwarded, hc.heart]
    rfl

theorem Inv.unforwarded (inv : Inv h L D s origin scan) (hb : h.size b = some n)
    (hf : ¬Forwarded s.memory b) : ∀ j < n, s.memory (b + j) = h.memory (b + j) :=
  (inv.object b n hb).resolve_right (mt (inv.forwarded_iff hb).mpr hf)

/-! ## Steps -/

theorem Inv.addPad (inv : Inv h L D s origin scan) :
    Inv h L D (addToTospace ⟨.manifestNmVector, 0⟩ s) origin scan := by
  have hnone : origin s.tospaceNext = none := by
    cases ho : origin s.tospaceNext with
    | none => rfl
    | some a => exact absurd (inv.owner _ _ ho).1 (Nat.lt_irrefl _)
  have hold : ∀ i a, origin i = some a →
      (addToTospace ⟨.manifestNmVector, 0⟩ s).tospace i = s.tospace i := by
    intro i a ho
    exact Function.update_of_ne (Nat.ne_of_lt (inv.owner i a ho).1) _ _
  refine
    { sync := ?_, object := inv.object, owner := fun i a ho => ?_, pad := fun i hi ho => ?_,
      fresh := fun i a ho hw hs => ?_, done := fun i a ho hw hi hv => ?_, tiles := ?_,
      live := inv.live, edges := inv.edges, waiting := inv.waiting,
      waits := fun i b ho hb => (hold i b ho).trans (inv.waits i b ho hb) }
  · rw [addToTospace]
    exact congrArg (· + 1) inv.sync
  · obtain ⟨hi, hobj⟩ := inv.owner i a ho
    exact ⟨Nat.lt_succ_of_lt hi, hobj⟩
  · rcases Nat.lt_succ_iff_lt_or_eq.mp hi with hlt | rfl
    · exact (Function.update_of_ne (Nat.ne_of_lt hlt) _ _).trans (inv.pad i hlt ho)
    · exact Function.update_self ..
  · exact (hold i a ho).trans (inv.fresh i a ho hw hs)
  · exact ⟨(hold i a ho).trans (inv.done i a ho hw hi hv).1, (inv.done i a ho hw hi hv).2⟩
  · exact inv.tiles.append (fun _ hx => hx) (fun _ _ _ hw => hw) (fun _ _ => rfl) (.pad hnone .nil)

/-- The state after the object at `b`, of `n` words, has been copied. -/
structure Transported (s s' : State) (b n : Nat) : Prop where
  tospaceNext : s'.tospaceNext = s.tospaceNext + n
  newspaceNext : s'.newspaceNext = s.newspaceNext + n
  old : ∀ i < s.tospaceNext, s'.tospace i = s.tospace i
  heart : s'.memory b = makeBrokenHeart s.newspaceNext
  memory : ∀ x, x < b ∨ b + n ≤ x → s'.memory x = s.memory x

/-- The origins after the object at `b` has been copied. -/
def extend (origin : Nat → Option Nat) (next b n : Nat) (i : Nat) : Option Nat :=
  if next ≤ i ∧ i < next + n then some (b + (i - next)) else origin i

theorem extend_old {i} (hi : i < next) : extend origin next b n i = origin i :=
  if_neg fun hin => Nat.not_lt.mpr hin.1 hi

theorem extend_new {j} (hj : j < n) : extend origin next b n (next + j) = some (b + j) := by
  rw [extend, if_pos (by omega), Nat.add_sub_cancel_left]

theorem extend_some {i a} (he : extend origin next b n i = some a) :
    (next ≤ i ∧ i < next + n ∧ a = b + (i - next)) ∨ origin i = some a := by
  rw [extend] at he
  split at he
  · rename_i hin
    exact .inl ⟨hin.1, hin.2, (Option.some.inj he).symm⟩
  · exact .inr he

theorem Transported.keeps (ht : Transported s s' b n) (hb : h.size b = some n)
    (hf : ¬Forwarded s.memory b) {d m} (hd : h.size d = some m) (hfd : Forwarded s.memory d) :
    s'.memory d = s.memory d := by
  refine ht.memory d ?_
  have hne : d ≠ b := fun heq => hf (heq ▸ hfd)
  have hpos := (h.inside d m hd).1
  rcases Nat.lt_or_gt_of_ne hne with hlt | hgt
  · exact .inl hlt
  · exact .inr (h.disjoint b n d m hb hd hgt)

theorem Heap.visited_wordOk (h : Heap c) {a} (hv : h.Visited c a) : h.WordOk c (h.view c a) := by
  obtain ⟨b, n, hb, hf⟩ := hv
  exact (h.words b n hb).wordOk hf

theorem Layout.WordOk.size {h : Layout} {w d} (hok : h.WordOk c w) (hr : Layout.Refers c w d) :
    ∃ m, h.size d = some m := by
  obtain ⟨hsome, rfl, hin⟩ := hr
  obtain ⟨shape, hshape⟩ := Option.isSome_iff_exists.mp hsome
  rw [Layout.size, hok.points shape hshape hin]
  exact ⟨_, rfl⟩

theorem translate_congr {memory memory' : Nat → Object} {w}
    (hsame : ∀ d, Layout.Refers c w d → memory' d = memory d) :
    translate c memory' w = translate c memory w := by
  rw [translate, translate]
  split
  · rename_i hp
    rw [hsame w.datum ⟨hp.1, rfl, hp.2⟩]
  · rfl

section
variable {D' : Nat → Prop} {i : Nat}

theorem Transported.copy_old (ht : Transported s s' b n) (inv : Inv h L D s origin scan)
    (hb : h.size b = some n) (hf : ¬Forwarded s.memory b) {d m k} (hd : h.size d = some m)
    (hc : Copy c s.memory origin d m k) :
    Copy c s'.memory (extend origin s.tospaceNext b n) d m k := by
  have hfd := (inv.forwarded_iff hd).mpr ⟨k, hc⟩
  refine ⟨(ht.keeps hb hf hd hfd).trans hc.heart, fun j hj => ?_⟩
  rw [extend_old (inv.owner _ _ (hc.origin j hj)).1]
  exact hc.origin j hj

theorem Transported.copy_new (ht : Transported s s' b n) (inv : Inv h L D s origin scan) :
    Copy c s'.memory (extend origin s.tospaceNext b n) b n s.tospaceNext :=
  ⟨by rw [ht.heart, inv.sync], fun _ hj => extend_new hj⟩

section
variable (inv : Inv h L D s origin scan)
include inv

theorem Inv.transport (hb : h.size b = some n) (hf : ¬Forwarded s.memory b)
    (ht : Transported s s' b n) (hL : L b) (hD : ∀ x, D x → D' x)
    (hD' : ∀ x, D' x → D x ∨ x = b ∧ h.shape b = some .ephemeron ∧
      s'.tospace s.tospaceNext = unmarkedEphemeronManifest)
    (hfresh : ∀ j < n, ¬Waits D' (b + j) → s'.tospace (s.tospaceNext + j) = h.view c (b + j))
    (htiles : Tiles h D' (extend origin s.tospaceNext b n) (s.tospaceNext + n) s.tospaceNext)
    (hedges : ∀ a d, ¬Waits D' a → h.Field c b n a → Layout.Refers c (h.view c a) d → L d) :
    Inv h L D' s' (extend origin s.tospaceNext b n) scan := by
  have hpos := (h.inside b n hb).1
  have hscan : scan ≤ s.tospaceNext := inv.tiles.le
  have hmono : ∀ a, Waits D a → Waits D' a := fun a ⟨d, hd, hrange⟩ => ⟨d, hD d hd, hrange⟩
  have hwait : ∀ a, a < b ∨ b + n ≤ a → Waits D' a → Waits D a := by
    rintro a ha ⟨d, hd, hrange⟩
    rcases hD' d hd with hd | ⟨rfl, hshape, -⟩
    · exact ⟨d, hd, hrange⟩
    · obtain rfl := Option.some.inj (hb.symm.trans (Layout.size_of_ephemeron hshape))
      omega
  -- the words of the older copies are not those of this object
  have hout : ∀ i a, origin i = some a → a < b ∨ b + n ≤ a := by
    intro i a ho
    obtain ⟨-, d, m, k, hd, hc, hk, hi, ha⟩ := inv.owner i a ho
    by_contra hin
    obtain rfl := h.unique (x := a) hb hd (by omega) (by omega)
    exact hf ((inv.forwarded_iff hd).mpr ⟨k, hc⟩)
  refine
    { sync := ?_, object := fun d m hd => ?_, owner := fun i a ho => ?_, pad := fun i hi ho => ?_,
      fresh := fun i a ho hw hs => ?_, done := fun i a ho hw hi hv => ?_, tiles := ?_,
      live := fun d m hd hfd => ?_, edges := fun i a d ho hw hv hr => ?_,
      waiting := fun d hd => ?_, waits := fun i d ho hd => ?_ }
  · rw [ht.newspaceNext, ht.tospaceNext, inv.sync, Nat.add_assoc]
  · by_cases heq : d = b
    · subst heq
      rw [Option.some.inj (hd.symm.trans hb)]
      exact .inr ⟨_, ht.copy_new inv⟩
    · by_cases hfd : Forwarded s.memory d
      · obtain ⟨k, hc⟩ := (inv.forwarded_iff hd).mp hfd
        exact .inr ⟨k, ht.copy_old inv hb hf hd hc⟩
      · refine .inl fun j hj => ?_
        rw [← inv.unforwarded hd hfd j hj]
        refine ht.memory _ ?_
        by_contra hin
        exact heq (h.unique (x := d + j) hd hb (by omega) (by omega))
  · rw [ht.tospaceNext]
    rcases extend_some ho with ⟨hle, hlt, rfl⟩ | ho
    · exact ⟨hlt, b, n, s.tospaceNext, hb, ht.copy_new inv, hle, hlt, by omega⟩
    · obtain ⟨hi, d, m, k, hd, hc, hk⟩ := inv.owner i a ho
      exact ⟨by omega, d, m, k, hd, ht.copy_old inv hb hf hd hc, hk⟩
  · rw [ht.tospaceNext] at hi
    by_cases hlt : i < s.tospaceNext
    · rw [extend_old hlt] at ho
      rw [ht.old i hlt]
      exact inv.pad i hlt ho
    · rw [extend, if_pos (by omega)] at ho
      exact absurd ho (Option.some_ne_none _)
  · rcases extend_some ho with ⟨hle, hlt, rfl⟩ | ho
    · have := hfresh (i - s.tospaceNext) (by omega) hw
      rwa [Nat.add_sub_cancel' hle] at this
    · rw [ht.old i (inv.owner i a ho).1]
      exact inv.fresh i a ho (fun hwa => hw (hmono a hwa)) hs
  · rcases extend_some ho with ⟨hle, -⟩ | ho
    · omega
    · obtain ⟨hword, hforward⟩ := inv.done i a ho (fun hwa => hw (hmono a hwa)) hi hv
      have hsame : ∀ d, Layout.Refers c (h.view c a) d → s'.memory d = s.memory d := by
        intro d hr
        obtain ⟨m, hm⟩ := (h.visited_wordOk hv).size hr
        exact ht.keeps hb hf hm (hforward d hr)
      refine ⟨?_, fun d hr => ?_⟩
      · rw [ht.old i (inv.owner i a ho).1, hword, translate_congr hsame]
      · exact (hforward d hr).congr (hsame d hr)
  · rw [ht.tospaceNext]
    refine inv.tiles.append hD (fun i a ho hw hwa => hw (hwait a (hout i a ho) hwa))
      (fun i hi => extend_old hi) htiles
  · by_cases heq : d = b
    · rwa [heq]
    · refine inv.live d m hd ?_
      rw [Forwarded, ht.memory d ?_] at hfd
      · exact hfd
      · by_contra hin
        have hdpos := (h.inside d m hd).1
        exact heq (h.unique (x := d) hd hb (by omega) (by omega))
  · rcases extend_some ho with ⟨hle, hlt, rfl⟩ | ho
    · exact hedges _ d hw (h.visited_field hb (by omega) hv) hr
    · exact inv.edges i a d ho (fun hwa => hw (hmono a hwa)) hv hr
  · rcases hD' d hd with hd | ⟨rfl, hshape, -⟩
    · obtain ⟨hshape, hfd⟩ := inv.waiting d hd
      exact ⟨hshape, hfd.congr (ht.keeps hb hf (Layout.size_of_ephemeron hshape) hfd)⟩
    · refine ⟨hshape, ?_⟩
      rw [Forwarded, ht.heart]
      rfl
  · rcases extend_some ho with ⟨hle, hlt, rfl⟩ | ho
    · rcases hD' _ hd with hd | ⟨heq, -, hmanifest⟩
      · obtain ⟨hshape, hfd⟩ := inv.waiting _ hd
        have hsize := Layout.size_of_ephemeron hshape
        have := h.unique hb hsize (x := b + (i - s.tospaceNext)) (by omega)
          (by rw [ephemeronSize]; omega)
        exact absurd (this ▸ hfd) hf
      · rwa [show i = s.tospaceNext by omega]
    · rw [ht.old i (inv.owner i d ho).1]
      refine inv.waits i d ho ((hD' d hd).resolve_right fun ⟨heq, _⟩ => ?_)
      have := hout i d ho
      omega

theorem Inv.storeWord {a} (ho : origin scan = some a) (hw : ¬Waits D a) (hv : h.Visited c a)
    (hforward : ∀ d, Layout.Refers c (h.view c a) d → Forwarded s.memory d)
    (ht : Tiles h D origin s.tospaceNext (scan + 1)) :
    Inv h L D (store .tospace scan (translate c s.memory (h.view c a)) s) origin (scan + 1) := by
  refine
    { sync := inv.sync, object := inv.object, owner := inv.owner, pad := fun i hi hoi => ?_,
      fresh := fun i x hoi hwx hs => ?_, done := fun i x hoi hwx hi hvx => ?_, tiles := ht,
      live := inv.live, edges := inv.edges, waiting := inv.waiting,
      waits := fun i b hoi hb => ?_ }
  · refine (Function.update_of_ne ?_ _ _).trans (inv.pad i hi hoi)
    intro heq
    rw [heq, ho] at hoi
    exact absurd hoi (Option.some_ne_none _)
  · have hne : i ≠ scan := by
      rintro rfl
      rw [ho] at hoi
      rcases hs with hlt | hnv
      · omega
      · exact hnv (Option.some.inj hoi ▸ hv)
    refine (Function.update_of_ne hne _ _).trans (inv.fresh i x hoi hwx ?_)
    exact hs.imp_left fun hle => by omega
  · by_cases heq : i = scan
    · subst heq
      obtain rfl := Option.some.inj (ho.symm.trans hoi)
      exact ⟨Function.update_self .., hforward⟩
    · obtain ⟨hword, hdone⟩ := inv.done i x hoi hwx (by omega) hvx
      exact ⟨(Function.update_of_ne heq _ _).trans hword, hdone⟩
  · refine (Function.update_of_ne ?_ _ _).trans (inv.waits i b hoi hb)
    rintro rfl
    obtain rfl := Option.some.inj (ho.symm.trans hoi)
    exact hw ⟨a, hb, Nat.le_refl a, Nat.lt_add_of_pos_right (Nat.succ_pos 4)⟩

theorem Inv.next_word (hlt : scan < s.tospaceNext) :
    (∃ a, origin scan = some a ∧ ¬Waits D a ∧ h.Visited c a ∧ h.WordOk c (h.view c a) ∧
      s.tospace scan = h.view c a ∧ Tiles h D origin s.tospaceNext (scan + 1)) ∨
    ∃ d, s.tospace scan = ⟨.manifestNmVector, d⟩ ∧
      (∀ i a, scan ≤ i → i < scan + 1 + d → origin i = some a → ¬Waits D a → ¬h.Visited c a) ∧
      Tiles h D origin s.tospaceNext (scan + 1 + d) := by
  cases inv.tiles with
  | nil => exact absurd hlt (Nat.lt_irrefl _)
  | pad ho ht =>
    refine .inr ⟨0, inv.pad scan hlt ho, fun i a hi hi' hoi => ?_, ht⟩
    obtain rfl : i = scan := by omega
    exact absurd (ho.symm.trans hoi) (Option.some_ne_none a).symm
  | word ho hw hv hok ht =>
    exact .inl ⟨_, ho, hw, hv, hok, inv.fresh _ _ ho hw (.inl (Nat.le_refl _)), ht⟩
  | @skip _ a d ho hw hnmv ht =>
    have hskip := inv.fresh scan a (ho 0 (Nat.zero_le d)).1 hw (.inl (Nat.le_refl _))
    refine .inr ⟨d, hskip.trans hnmv, fun i x hi hi' hoi _ => ?_, ht⟩
    obtain ⟨hoj, hnv⟩ := ho (i - scan) (by omega)
    rw [Nat.add_sub_cancel' hi] at hoj
    rwa [Option.some.inj (hoi.symm.trans hoj)]
  | @waits _ b ho hb ht =>
    refine .inr ⟨4, inv.waits scan b (ho 0 (Nat.succ_pos 4)) hb, fun i x hi hi' hoi hw => ?_, ht⟩
    have hoj := ho (i - scan) (show i - scan < 5 by omega)
    rw [Nat.add_sub_cancel' hi] at hoj
    refine absurd ⟨b, hb, ?_⟩ hw
    rw [Option.some.inj (hoi.symm.trans hoj), ephemeronSize]
    omega

theorem Inv.skipWords {scan'} (hle : scan ≤ scan')
    (hnot : ∀ i a, scan ≤ i → i < scan' → origin i = some a → ¬Waits D a → ¬h.Visited c a)
    (ht : Tiles h D origin s.tospaceNext scan') : Inv h L D s origin scan' := by
  refine
    { inv with
      fresh := fun i a ho hw hs => ?_, done := fun i a ho hw hi hv => ?_, tiles := ht }
  · exact inv.fresh i a ho hw (hs.imp_left fun h => by omega)
  · by_cases hlt : i < scan
    · exact inv.done i a ho hw hlt hv
    · exact absurd hv (hnot i a (by omega) hi ho hw)

end

end

end MitScheme.Microcode.GcLoop
