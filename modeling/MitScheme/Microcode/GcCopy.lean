import MitScheme.Microcode.GcScan

/-! # The garbage collector: the copied graph

A collection of a heap without weak pairs and ephemerons copies what the roots reach, each
object once, and the copies point to each other as the objects did. -/

namespace MitScheme.Microcode.GcLoop

variable {c : Config} {h : Heap c} {L D : Nat → Prop} {s : State} {origin : Nat → Option Nat}
  {scan b n : Nat}

/-! ## The rules -/

section
variable (inv : Inv h L D s origin scan)
include inv

theorem Inv.padded (align) : Inv h L D (padded c align s) origin scan := by
  obtain ⟨m, -, heq⟩ := padded_eq (c := c) align s
  rw [heq]
  exact Function.Iterate.rec (fun t => Inv h L D t origin scan) inv (fun _ ht => ht.addPad) m

theorem Inv.not_waits (hb : h.size b = some n) (hf : ¬Forwarded s.memory b) {x}
    (hx : b ≤ x ∧ x < b + n) : ¬Waits D x := by
  rintro ⟨d, hd, hrange⟩
  obtain ⟨hshape, hfd⟩ := inv.waiting d hd
  obtain rfl := h.unique hb (Layout.size_of_ephemeron hshape) hx hrange
  exact hf hfd

theorem Inv.copyPlain (hb : h.size b = some n) {shape} (hshape : h.shape b = some shape)
    (hplain : shape ≠ .weakPair) (hf : ¬Forwarded s.memory b) (hL : L b)
    (hedges : ∀ a d, h.Field c b n a → Layout.Refers c (h.view c a) d → L d) (align) :
    Inv h L D (gcTransportWords c b n align s).2
      (extend origin (GcLoop.padded c align s).tospaceNext b n) scan := by
  have hpads := padded_pads (c := c) align s
  have hpos := (h.inside b n hb).1
  have hf' : ¬Forwarded (GcLoop.padded c align s).memory b := by rwa [hpads.memory]
  refine (inv.padded align).transport hb hf' (gcTransportWords_transported align hpos) hL
    (fun _ hx => hx) (fun _ hx => .inl hx) (fun j hj _ => ?_) ?_
    (fun a d _ hfield hr => hedges a d hfield hr)
  · rw [gcTransportWords_word align hj, inv.unforwarded hb hf j hj,
      h.view_plain hb hshape hplain hj]
  · refine (h.words b n hb).tiles (fun x hx hlt => ?_) (fun x hx hlt => ?_)
      (fun j hj => extend_new hj) .nil
    · exact ⟨h.visited_field hb ⟨hx, hlt⟩, fun hfield => ⟨b, n, hb, hfield⟩⟩
    · exact inv.not_waits hb hf ⟨hx, hlt⟩

theorem Inv.storeNext (hlt : scan < s.tospaceNext) (hscans : scansWord (s.tospace scan) = true)
    (hforward : ∀ d, Layout.Refers c (s.tospace scan) d → Forwarded s.memory d) :
    Inv h L D (store .tospace scan (translate c s.memory (s.tospace scan)) s) origin
      (scan + 1) := by
  rcases inv.next_word hlt with ⟨a, ho, hw, hv, -, hword, ht⟩ | ⟨d, hnmv, -⟩
  · rw [hword] at hforward ⊢
    exact inv.storeWord ho hw hv hforward ht
  · rw [hnmv] at hscans
    exact absurd hscans Bool.false_ne_true

theorem Inv.skipNext {d} (hlt : scan < s.tospaceNext)
    (hnmv : s.tospace scan = ⟨.manifestNmVector, d⟩) : Inv h L D s origin (scan + 1 + d) := by
  rcases inv.next_word hlt with ⟨a, -, -, -, hok, hword, -⟩ | ⟨d', hnmv', hnot, ht⟩
  · have hscans := hok.scans
    rw [← hword, hnmv] at hscans
    exact absurd hscans Bool.false_ne_true
  · obtain rfl : d = d' := (Object.mk.inj (hnmv.symm.trans hnmv')).2
    exact inv.skipWords (by omega) hnot ht

theorem Inv.congr_memory {memory : Nat → Object}
    (hsame : ∀ x, c.inFromspace x = true → memory x = s.memory x) :
    Inv h L D { s with memory := memory } origin scan := by
  have hin : ∀ {b n j}, h.size b = some n → j < n → c.inFromspace (b + j) = true := by
    intro b n j hb hj
    obtain ⟨-, hstart, hend⟩ := h.inside b n hb
    rw [Config.inFromspace, decide_eq_true_eq]
    omega
  have hhead : ∀ {b n}, h.size b = some n → memory b = s.memory b := fun hb =>
    hsame _ (hin (j := 0) hb (h.inside _ _ hb).1)
  have hcopy : ∀ {b n i}, h.size b = some n → Copy c s.memory origin b n i →
      Copy c memory origin b n i := fun hb hc => ⟨(hhead hb).trans hc.heart, hc.origin⟩
  refine
    { inv with
      object := fun b n hb => ?_, owner := fun i a ho => ?_, done := fun i a ho hw hi hv => ?_,
      live := fun b n hb hf => ?_, waiting := fun b hb => ?_ }
  · refine (inv.object b n hb).imp (fun hsame' j hj => ?_) (Exists.imp fun i hc => hcopy hb hc)
    exact (hsame _ (hin hb hj)).trans (hsame' j hj)
  · obtain ⟨hi, b, n, k, hb, hc, hrest⟩ := inv.owner i a ho
    exact ⟨hi, b, n, k, hb, hcopy hb hc, hrest⟩
  · obtain ⟨hword, hforward⟩ := inv.done i a ho hw hi hv
    have hsame' : ∀ d, Layout.Refers c (h.view c a) d → memory d = s.memory d :=
      fun d hr => hsame d hr.2.2
    exact ⟨hword.trans (translate_congr hsame').symm,
      fun d hr => (hforward d hr).congr (hsame' d hr)⟩
  · exact inv.live b n hb (hf.congr (hhead hb).symm)
  · obtain ⟨hshape, hf⟩ := inv.waiting b hb
    exact ⟨hshape, hf.congr (hhead (Layout.size_of_ephemeron hshape))⟩

theorem Inv.storeRoot {a object} (ha : c.inFromspace a = false) :
    Inv h L D (store .oldspace a object s) origin scan := by
  refine inv.congr_memory fun x hx => Function.update_of_ne ?_ _ _
  rintro rfl
  rw [ha] at hx
  exact Bool.false_ne_true hx

end

/-- The state of a collection that does not scan ephemerons. -/
structure Scanning (h : Heap c) (L : Nat → Prop) (scan : Nat) (s : State) : Prop where
  inv : ∃ origin, Inv h L (fun _ => False) s origin scan
  idle : s.scanningEphemerons = false

theorem gcPrecheckFrom_none {limit address} (hin : c.inFromspace address = true)
    (hf : ¬Forwarded s.memory address) (hidle : s.scanningEphemerons = false) :
    gcPrecheckFrom c limit address s = .ok (none, s) := by
  rw [gcPrecheckFrom, hin, Bool.not_true, if_neg Bool.false_ne_true, hidle]
  exact if_neg hf

theorem gcTransportWords_idle (align) :
    (gcTransportWords c b n align s).2.scanningEphemerons = s.scanningEphemerons := by
  rw [gcTransportWords_snd]
  obtain ⟨m, -, heq⟩ := padded_eq (c := c) align s
  show (GcLoop.padded c align s).scanningEphemerons = _
  rw [heq]
  exact Function.Iterate.rec (fun t : State => t.scanningEphemerons = s.scanningEphemerons) rfl
    (f := addToTospace ⟨.manifestNmVector, 0⟩) (fun _ ht => ht) m

def Heap.Strong (h : Heap c) : Prop := ∀ b shape, h.shape b = some shape → shape.Plain

theorem scanning_rules (hstrong : h.Strong) (limit) (hclosed : ∀ b d, L b → h.Points b d → L d) :
    Rules h L limit (Scanning h L) where
  inv hJ := ⟨_, hJ.inv⟩
  closed hL hb _ _ hfield hr := hclosed _ _ hL ⟨_, _, hb, hfield, hr⟩
  copy {scan s b n shape} hJ hb hshape hplain hf hL := by
    obtain ⟨origin, inv⟩ := hJ.inv
    obtain ⟨hpos, hstart, hend⟩ := h.inside b n hb
    have hin : c.inFromspace b = true := by
      rw [Config.inFromspace, decide_eq_true_eq]
      omega
    have hnot : shape ≠ .weakPair := by
      rintro rfl
      exact hplain
    refine ⟨s, gcPrecheckFrom_none hin hf hJ.idle, rfl, fun align => ⟨⟨?_, ?_⟩, ?_, inv.sync⟩⟩
    · exact ⟨_, inv.copyPlain hb hshape hnot hf hL
        (fun a d hfield hr => hclosed b d hL ⟨n, a, hb, hfield, hr⟩) align⟩
    · exact (gcTransportWords_idle align).trans hJ.idle
    · exact (gcTransportWords_transported align hpos).step (padded_pads align s) hb hf
  weakPair _ hshape := (hstrong _ _ hshape).elim
  ephemeron _ hshape := (hstrong _ _ hshape).elim
  storeWord hJ hlt hscans hforward := by
    obtain ⟨origin, inv⟩ := hJ.inv
    exact ⟨⟨origin, inv.storeNext hlt hscans hforward⟩, hJ.idle⟩
  skipWords hJ hlt hnmv := by
    obtain ⟨origin, inv⟩ := hJ.inv
    exact ⟨⟨origin, inv.skipNext hlt hnmv⟩, hJ.idle⟩
  storeRoot hJ ha := by
    obtain ⟨origin, inv⟩ := hJ.inv
    exact ⟨⟨origin, inv.storeRoot ha⟩, hJ.idle⟩

/-! ## The copied graph -/

def relocate (c : Config) (copy : Nat → Nat) (w : Object) : Object :=
  if (pointerShape w).isSome ∧ c.inFromspace w.datum then
    w.newAddress (c.newspaceStart + copy w.datum)
  else w

/-- The collected state holds the graph that the roots reach: `copy` is the index in tospace of
the copy of an object. -/
structure CopiedGraph (h : Heap c) (roots : Roots h) (s : State) (copy : Nat → Nat) : Prop where
  sync : s.newspaceNext = c.newspaceStart + s.tospaceNext
  copied : ∀ b n, h.size b = some n → roots.Reaches b →
    s.memory b = makeBrokenHeart (c.newspaceStart + copy b) ∧ copy b + n ≤ s.tospaceNext
  kept : ∀ b n, h.size b = some n → ¬roots.Reaches b → ∀ j < n, s.memory (b + j) = h.memory (b + j)
  once : ∀ i < s.tospaceNext, s.tospace i = ⟨.manifestNmVector, 0⟩ ∨
    ∃ b n, h.size b = some n ∧ roots.Reaches b ∧ copy b ≤ i ∧ i < copy b + n
  apart : ∀ b n b' n', h.size b = some n → h.size b' = some n' → roots.Reaches b →
    roots.Reaches b' → b ≠ b' → copy b + n ≤ copy b' ∨ copy b' + n' ≤ copy b
  word : ∀ b n j, h.size b = some n → roots.Reaches b → h.Field c b n (b + j) →
    s.tospace (copy b + j) = relocate c copy (h.memory (b + j))
  raw : ∀ b n j, h.size b = some n → roots.Reaches b → j < n → ¬h.Field c b n (b + j) →
    s.tospace (copy b + j) = h.memory (b + j)
  root : ∀ a, h.Field c roots.start roots.length a → s.memory a = relocate c copy (h.memory a)
  outside : ∀ a, c.inFromspace a = false → ¬h.Field c roots.start roots.length a →
    s.memory a = h.memory a

def Roots.work {h : Heap c} (roots : Roots h) : Nat := roots.length + pending h h.memory

theorem inv_openTospace {t} (ht : t.memory = h.memory) :
    Inv h L (fun _ => False) (openTospace c t) (fun _ => none) 0 where
  sync := rfl
  object b n hb := .inl fun j hj => congrFun ht _
  owner i a ho := absurd ho (Option.some_ne_none a).symm
  pad i hi := absurd hi (Nat.not_lt_zero i)
  fresh i a ho := absurd ho (Option.some_ne_none a).symm
  done i a ho := absurd ho (Option.some_ne_none a).symm
  tiles := .nil
  live b n hb hf := by
    have hhead := h.head_not_heart hb
    rw [← ht] at hhead
    exact absurd (hhead.symm.trans hf) Bool.false_ne_true
  edges i a d ho := absurd ho (Option.some_ne_none a).symm
  waiting b hb := hb.elim
  waits i b ho := absurd ho (Option.some_ne_none b).symm

section
variable {roots : Roots h} {s' : State}

theorem Roots.Reaches.step {b d} (hb : roots.Reaches b) (hd : h.Points b d) : roots.Reaches d := by
  obtain ⟨r, hr, hpath⟩ := hb
  exact ⟨r, hr, hpath.tail hd⟩

theorem Inv.points_forwarded (inv : Inv h L (fun _ => False) s origin s.tospaceNext) {b d}
    (hf : Forwarded s.memory b) (hd : h.Points b d) : Forwarded s.memory d := by
  obtain ⟨n, a, hb, hfield, hr⟩ := hd
  obtain ⟨i, hc⟩ := (inv.forwarded_iff hb).mp hf
  have hrange := hfield.range
  have ho : origin (i + (a - b)) = some a := by
    rw [hc.origin (a - b) (by omega), Nat.add_sub_cancel' hrange.1]
  exact (inv.done _ a ho (fun ⟨_, hwait, _⟩ => hwait) (inv.owner _ _ ho).1
    ⟨b, n, hb, hfield⟩).2 d hr

theorem Inv.reaches_forwarded (inv : Inv h L (fun _ => False) s origin s.tospaceNext)
    (hroots : ∀ d, roots.Points d → Forwarded s.memory d) (hb : roots.Reaches b) :
    Forwarded s.memory b := by
  obtain ⟨r, hr, hpath⟩ := hb
  induction hpath with
  | refl => exact hroots r hr
  | tail _ hd ih => exact inv.points_forwarded ih hd

def copyIndex (c : Config) (s : State) (b : Nat) : Nat := (s.memory b).datum - c.newspaceStart

theorem Copy.index {i} (hc : Copy c s.memory origin b n i) : copyIndex c s b = i := by
  rw [copyIndex, hc.heart]
  exact Nat.add_sub_cancel_left ..

theorem Inv.translate_eq (inv : Inv h L D s origin scan) {w} (hok : h.WordOk c w)
    (hforward : ∀ d, Layout.Refers c w d → Forwarded s.memory d) :
    translate c s.memory w = relocate c (copyIndex c s) w := by
  rw [translate, relocate]
  split
  · rename_i hp
    have hr : Layout.Refers c w w.datum := ⟨hp.1, rfl, hp.2⟩
    obtain ⟨m, hm⟩ := hok.size hr
    obtain ⟨i, hc⟩ := (inv.forwarded_iff hm).mp (hforward _ hr)
    rw [hc.index, hc.heart]
    rfl
  · rfl

theorem Inv.copiedGraph (hstrong : h.Strong)
    (inv : Inv h roots.Reaches (fun _ => False) s origin s.tospaceNext)
    (hroots : ∀ a, h.Field c roots.start roots.length a →
      s.memory a = translate c s.memory (h.view c a) ∧
        ∀ d, Layout.Refers c (h.view c a) d → Forwarded s.memory d)
    (hout : ∀ a, c.inFromspace a = false → ¬h.Field c roots.start roots.length a →
      s.memory a = h.memory a) :
    CopiedGraph h roots s (copyIndex c s) := by
  have hcopy : ∀ {b n}, h.size b = some n → roots.Reaches b →
      Copy c s.memory origin b n (copyIndex c s b) := by
    intro b n hb hreach
    have hf := inv.reaches_forwarded (fun d ⟨a, hfield, hr⟩ => (hroots a hfield).2 d hr) hreach
    obtain ⟨i, hc⟩ := (inv.forwarded_iff hb).mp hf
    rwa [hc.index]
  have hview : ∀ {b n j}, h.size b = some n → j < n → h.view c (b + j) = h.memory (b + j) := by
    intro b n j hb hj
    obtain ⟨shape, hshape, -⟩ := Option.map_eq_some_iff.mp hb
    refine h.view_plain hb hshape (fun heq => ?_) hj
    exact (heq ▸ hstrong b shape hshape : Shape.Plain .weakPair)
  refine
    { sync := inv.sync, copied := fun b n hb hreach => ?_, kept := fun b n hb hreach => ?_,
      once := fun i hi => ?_, apart := fun b n b' n' hb hb' hreach hreach' hne => ?_,
      word := fun b n j hb hreach hfield => ?_, raw := fun b n j hb hreach hj hfield => ?_,
      root := fun a hfield => ?_, outside := hout }
  · have hpos := (h.inside b n hb).1
    have hlast := (inv.owner _ _ ((hcopy hb hreach).origin (n - 1) (by omega))).1
    exact ⟨(hcopy hb hreach).heart, by omega⟩
  · exact inv.unforwarded hb fun hf => hreach (inv.live b n hb hf)
  · cases ho : origin i with
    | none => exact .inl (inv.pad i hi ho)
    | some a =>
      obtain ⟨-, b, n, k, hb, hc, hk, hlt, -⟩ := inv.owner i a ho
      have hreach := inv.live b n hb ((inv.forwarded_iff hb).mpr ⟨k, hc⟩)
      exact .inr ⟨b, n, hb, hreach, by rw [hc.index]; exact ⟨hk, hlt⟩⟩
  · -- a common index would come from one address
    by_contra hover
    have hpos := (h.inside b n hb).1
    have hpos' := (h.inside b' n' hb').1
    have ho := (hcopy hb hreach).origin
      (max (copyIndex c s b) (copyIndex c s b') - copyIndex c s b) (by omega)
    have ho' := (hcopy hb' hreach').origin
      (max (copyIndex c s b) (copyIndex c s b') - copyIndex c s b') (by omega)
    rw [Nat.add_sub_cancel' (Nat.le_max_left ..)] at ho
    rw [Nat.add_sub_cancel' (Nat.le_max_right ..)] at ho'
    have heq := Option.some.inj (ho.symm.trans ho')
    exact hne (h.unique hb hb' (x := b + (max (copyIndex c s b) (copyIndex c s b') -
      copyIndex c s b)) (by omega) (by omega))
  · have hrange := hfield.range
    have ho := (hcopy hb hreach).origin j (by omega)
    obtain ⟨hword, hforward⟩ := inv.done _ _ ho (fun ⟨_, hwait, _⟩ => hwait) (inv.owner _ _ ho).1
      ⟨b, n, hb, hfield⟩
    rw [hword, inv.translate_eq ((h.words b n hb).wordOk hfield) hforward,
      hview hb (by omega)]
  · have ho := (hcopy hb hreach).origin j hj
    rw [← hview hb hj]
    refine inv.fresh _ _ ho (fun ⟨_, hwait, _⟩ => hwait) (.inr fun hv => hfield ?_)
    exact h.visited_field hb (by omega) hv
  · obtain ⟨hword, hforward⟩ := hroots a hfield
    have hrange := hfield.range
    have hin : c.inFromspace a = false := by
      rw [Config.inFromspace, decide_eq_false_iff_not]
      have := roots.outside
      omega
    rw [hword, inv.translate_eq (roots.words.wordOk hfield) hforward, h.view_outside hin]

end

/-- **A collection of tuples and vectors copies the graph that the roots reach, and nothing
else.** -/
theorem collect_copies_graph (hstrong : h.Strong) (roots : Roots h)
    (hmemory : s.memory = h.memory)
    (hidle : s.scanningEphemerons = false) {fuel : Nat} (hfuel : roots.work < fuel) :
    ∃ s' copy, collect c fuel roots.start (roots.start + roots.length) s = .ok s' ∧
      CopiedGraph h roots s' copy := by
  have R := scanning_rules hstrong fuel (L := roots.Reaches) fun b d hb hd => hb.step hd
  have hout : ∀ x, roots.start ≤ x → x < roots.start + roots.length →
      c.inFromspace x = false := by
    intro x hx hlt
    rw [Config.inFromspace, decide_eq_false_iff_not]
    have := roots.outside
    omega
  have hstart : pending h (openTospace c s).memory = pending h h.memory := by
    rw [show (openTospace c s).memory = h.memory from hmemory]
  rw [Roots.work] at hfuel
  obtain ⟨t, hrun, hJ, hscanned⟩ := R.scanOldspace roots.words fuel (openTospace c s)
    ⟨⟨_, inv_openTospace hmemory⟩, hidle⟩ hout (fun x _ _ => congrFun hmemory x)
    (fun x d hfield hr => ⟨d, ⟨x, hfield, hr⟩, .refl⟩) (by omega) (by omega)
  have hpotential : t.tospaceNext + pending h t.memory ≤ 0 + pending h (openTospace c s).memory :=
    hscanned.potential
  obtain ⟨s', hrun', hJ', hgrows, hsame⟩ := R.scanTospace fuel 0 t hJ (by omega) (by omega)
  obtain ⟨origin, inv⟩ := hJ'.inv
  refine ⟨s', copyIndex c s', ?_,
    inv.copiedGraph hstrong (fun a hfield => ?_) fun a ha hfield => ?_⟩
  · rw [collect, gcScanOldspace, hrun]
    rw [← Nat.sub_self c.newspaceStart] at hrun'
    exact hrun'
  · obtain ⟨hword, hforward⟩ := hscanned.words a hfield
    have hrange := hfield.range
    have hkeeps : ∀ d, Layout.Refers c (h.view c a) d → s'.memory d = t.memory d := by
      intro d hr
      obtain ⟨m, hm⟩ := (roots.words.wordOk hfield).size hr
      exact hgrows.keeps d m hm (hforward d hr)
    rw [hsame a (hout a hrange.1 hrange.2), hword, translate_congr hkeeps]
    exact ⟨rfl, fun d hr => (hforward d hr).congr (hkeeps d hr)⟩
  · rw [hsame a ha, ← congrFun hmemory a]
    by_cases hrange : roots.start ≤ a ∧ a < roots.start + roots.length
    · exact hscanned.raw a hrange.1 hrange.2 hfield
    · exact hscanned.outside a ha (by omega)

/-! ## A cyclic heap -/

def cyclicConfig : Config where
  fromspaceStart := 10
  fromspaceEnd := 20
  newspaceStart := 10
  wordSize := 4
  floatingAlignment := 8
  ephemeronArrayLength := 1
  floatingAlignment_pos := by decide

/-- A pair at 10 that points to itself and to the vector at 12, which points back. -/
def cyclicLayout : Layout where
  memory a :=
    if a = 0 then ⟨.list, 10⟩
    else if a = 10 then ⟨.list, 10⟩
    else if a = 11 then ⟨.bigFlonum, 12⟩
    else if a = 12 then ⟨.false, 1⟩
    else if a = 13 then ⟨.list, 10⟩
    else sharpF
  shape a := if a = 10 then some (.tuple 2) else if a = 12 then some .vector else none

theorem cyclicLayout_size {b n} (hb : cyclicLayout.size b = some n) :
    n = 2 ∧ (b = 10 ∨ b = 12) := by
  by_cases h10 : b = 10
  · subst h10
    exact ⟨(Option.some.inj hb).symm, .inl rfl⟩
  · by_cases h12 : b = 12
    · subst h12
      exact ⟨(Option.some.inj hb).symm, .inr rfl⟩
    · have hnone : cyclicLayout.shape b = none := by simp [cyclicLayout, h10, h12]
      rw [Layout.size, hnone] at hb
      exact absurd hb (Option.some_ne_none n).symm

theorem cyclicLayout_view (a) : cyclicLayout.view cyclicConfig a = cyclicLayout.memory a := by
  refine if_neg fun ⟨hweak, _⟩ => ?_
  rw [cyclicLayout] at hweak
  dsimp only at hweak
  split at hweak
  · cases hweak
  · split at hweak <;> cases hweak

theorem cyclicLayout_wordOk {a} (ha : a = 0 ∨ a = 10 ∨ a = 11 ∨ a = 12 ∨ a = 13) :
    cyclicLayout.WordOk cyclicConfig (cyclicLayout.memory a) := by
  rcases ha with rfl | rfl | rfl | rfl | rfl <;>
    exact ⟨rfl, fun shape hshape _ => by cases hshape <;> rfl⟩

theorem cyclicLayout_words {a n} (ha : a = 0 ∧ n = 1 ∨ n = 2 ∧ (a = 10 ∨ a = 12)) :
    cyclicLayout.Words cyclicConfig a n := by
  have hword : ∀ a, (a = 0 ∨ a = 10 ∨ a = 11 ∨ a = 12 ∨ a = 13) →
      cyclicLayout.WordOk cyclicConfig (cyclicLayout.view cyclicConfig a) := by
    intro a ha
    rw [cyclicLayout_view]
    exact cyclicLayout_wordOk ha
  rcases ha with ⟨rfl, rfl⟩ | ⟨rfl, rfl | rfl⟩
  · exact .word (hword 0 (by decide)) (.nil _)
  · exact .word (hword 10 (by decide)) (.word (hword 11 (by decide)) (.nil _))
  · exact .word (hword 12 (by decide)) (.word (hword 13 (by decide)) (.nil _))

def cyclicHeap : Heap cyclicConfig where
  toLayout := cyclicLayout
  low := by decide
  inside b n hb := by
    obtain ⟨rfl, rfl | rfl⟩ := cyclicLayout_size hb <;> decide
  disjoint b n b' n' hb hb' hlt := by
    obtain ⟨rfl, rfl | rfl⟩ := cyclicLayout_size hb <;>
      obtain ⟨rfl, rfl | rfl⟩ := cyclicLayout_size hb' <;> omega
  words b n hb := cyclicLayout_words (.inr (cyclicLayout_size hb))
  tuple b n hshape j hj := by
    have hsize := cyclicLayout_size (Layout.size_of_tuple hshape)
    exact cyclicLayout_wordOk (by omega)
  header b hshape := by
    have hsize : cyclicLayout.size b = some (1 + (cyclicLayout.memory b).datum) := by
      rw [Layout.size, hshape]
      rfl
    obtain ⟨-, rfl | rfl⟩ := cyclicLayout_size hsize
    · cases hshape
    · exact .inl rfl
  weakCar b hshape := by
    have hsize : cyclicLayout.size b = some 2 := by
      rw [Layout.size, hshape]
      rfl
    obtain ⟨-, rfl | rfl⟩ := cyclicLayout_size hsize <;> cases hshape
  ephemeron b hshape := by
    obtain ⟨-, rfl | rfl⟩ := cyclicLayout_size (Layout.size_of_ephemeron hshape) <;> cases hshape
  manifest b hshape := by
    obtain ⟨-, rfl | rfl⟩ := cyclicLayout_size (Layout.size_of_ephemeron hshape) <;> cases hshape

def cyclicRoots : Roots cyclicHeap where
  start := 0
  length := 1
  outside := by decide
  words := cyclicLayout_words (.inl ⟨rfl, rfl⟩)

def cyclicState : State where
  memory := cyclicLayout.memory
  tospace _ := sharpF
  tospaceNext := 0
  newspaceNext := 0
  weakChain := none
  ephemeronList := sharpF
  ephemeronQueue := sharpF
  scanningEphemerons := false
  ephemeronArray _ := sharpF
  ephemeronCount := 0

theorem collect_copies_graph_cyclic : cyclicHeap.Strong ∧
    ∃ s copy, collect cyclicConfig (cyclicRoots.work + 1) 0 1 cyclicState = .ok s ∧
      CopiedGraph cyclicHeap cyclicRoots s copy := by
  have hstrong : cyclicHeap.Strong := by
    intro b shape hshape
    obtain ⟨-, rfl | rfl⟩ := cyclicLayout_size (Option.map_eq_some_iff.mpr ⟨shape, hshape, rfl⟩) <;>
      cases hshape <;> trivial
  exact ⟨hstrong, collect_copies_graph hstrong cyclicRoots rfl rfl (Nat.lt_succ_self _)⟩

end MitScheme.Microcode.GcLoop
