import MitScheme.Lib.Outcome
import MitScheme.Runtime.QuotedPrintableDecode

/-! # Packets of text that is not clean

The decoder only adds to the port and never reads it. A text that is decoded to one output however
it is cut keeps that property after any packet, so the first place where the text is not clean
shows up in two ways of cutting it. -/

namespace MitScheme.Runtime.QuotedPrintable
open Decoding Lib.Outcome

variable {digits : DecimalDigits} {checked : Bool}

/-! ## What is on the port already -/

/-- With `w` on the port first. -/
def Decoding.after (w : List Nat) (context : Decoding) : Decoding :=
  { context with port := w ++ context.port }

variable (w : List Nat)

theorem after_write (context : Decoding) (s) :
    (context.after w).write s = (context.write s).after w := by
  simp [after, Decoding.write]

theorem decodeQpHex_after (context : Decoding) (c1 c2 rest) :
    (context.after w).decodeQpHex digits checked c1 c2 rest =
      (context.decodeQpHex digits checked c1 c2 rest).map fun r => (r.1.after w, r.2) := by
  rw [decodeQpHex, decodeQpHex]
  rcases hexChar digits checked c1 c2 with f | _ | char
  · rfl
  · exact congrArg Except.ok (congrArg (·, c2 :: rest) (after_write w context _))
  · exact congrArg Except.ok (congrArg (·, rest) (after_write w context _))

theorem loop_handleEquals_after (n) : ∀ (slice : List Nat),
    slice.length ≤ n → ∀ context : Decoding,
    loop digits checked slice (context.after w) =
        (loop digits checked slice context).map (after w) ∧
      (slice.length < n → handleEquals digits checked slice (context.after w) =
        (handleEquals digits checked slice context).map (after w)) := by
  induction n with
  | zero =>
    intro slice hlen context
    obtain rfl : slice = [] := List.length_eq_zero_iff.mp (by omega)
    exact ⟨by rw [loop_nil, loop_nil]; rfl, fun h => by cases h⟩
  | succ n ih =>
    intro slice hlen context
    have hequals {slice : List Nat} (hlen : slice.length ≤ n) (context : Decoding) :
        handleEquals digits checked slice (context.after w) =
          (handleEquals digits checked slice context).map (after w) := by
      rcases slice with _ | ⟨c1, _ | ⟨c2, rest⟩⟩
      · rw [handleEquals_nil, handleEquals_nil]
        rfl
      · rw [handleEquals_one, handleEquals_one]
        split
        · rfl
        · rw [after_write]
          rfl
      · rw [handleEquals_two, handleEquals_two, decodeQpHex_after]
        cases h : context.decodeQpHex digits checked c1 c2 rest with
        | error f => rfl
        | ok r =>
          have := decodeQpHex_length digits checked h
          simp only [List.length_cons] at hlen
          exact (ih r.2 (by omega) r.1).1
    refine ⟨?_, fun h => hequals (by omega) context⟩
    rcases slice with _ | ⟨c, rest⟩
    · rw [loop_nil, loop_nil]
      rfl
    · simp only [List.length_cons] at hlen
      by_cases he : c = equals
      · subst he
        rw [loop_equals, loop_equals]
        exact hequals (by omega) context
      · rw [loop_plain _ _ he, loop_plain _ _ he, after_write]
        exact (ih rest (by omega) _).1

theorem loop_after (w slice context) :
    loop digits checked slice (context.after w) =
      (loop digits checked slice context).map (after w) :=
  (loop_handleEquals_after w slice.length slice le_rfl context).1

theorem handleEquals_after (w slice context) :
    handleEquals digits checked slice (context.after w) =
      (handleEquals digits checked slice context).map (after w) :=
  (loop_handleEquals_after w (slice.length + 1) slice (by omega) context).2 (by omega)

theorem begin_after (w slice) (context : Decoding) :
    begin digits checked slice (context.after w) =
      (begin digits checked slice context).map (after w) := by
  obtain ⟨pending, port⟩ := context
  rcases slice with _ | ⟨char, rest⟩
  · cases pending <;> exact loop_after w [] _
  · cases pending with
    | none => exact loop_after w (char :: rest) ⟨.none, port⟩
    | string s =>
      show loop digits checked (char :: rest) ((Decoding.after w ⟨.none, port⟩).write s) = _
      rw [after_write, loop_after]
      rfl
    | char c =>
      by_cases hc : c = equals
      · subst hc
        exact handleEquals_after w (char :: rest) ⟨.none, port⟩
      · show (if c = equals then _ else _) =
          (if c = equals then _ else _ : Except Fault Decoding).map (after w)
        rw [if_neg hc, if_neg hc]
        show (Decoding.after w ⟨.none, port⟩).decodeQpHex digits checked c char rest >>= _ = _
        rw [decodeQpHex_after]
        cases Decoding.decodeQpHex digits checked ⟨.none, port⟩ c char rest with
        | error f => rfl
        | ok r => exact loop_after w r.2 r.1

theorem finish_after (type lwsp w context) :
    finish type lwsp (context.after w) = (finish type lwsp context).map (after w) := by
  obtain ⟨pending, port⟩ := context
  cases type with
  | partial_ =>
    simp only [finish, if_true, after]
    cases decodeQpPendingString pending lwsp <;> rfl
  | lineEnd =>
    cases pending with
    | none => simp [finish, after, Decoding.write, Except.map]
    | string s => rfl
    | char c => by_cases hc : c = equals <;> simp [finish, after, Decoding.write, Except.map, hc]
  | inputEnd =>
    cases pending with
    | none => rfl
    | string s => rfl
    | char c => by_cases hc : c = equals <;> simp [finish, after, Decoding.write, Except.map, hc]

theorem decodeQp_after (type w slice context) :
    decodeQp digits checked slice type (context.after w) =
      (decodeQp digits checked slice type context).map (after w) := by
  rw [decodeQp, decodeQp, begin_after]
  cases begin digits checked (slice.rdropWhile isLwsp) context with
  | error f => rfl
  | ok context => exact finish_after type _ w context

theorem decodeUpdate_after (w packet context) :
    decodeUpdate digits checked packet (context.after w) =
      (decodeUpdate digits checked packet context).map (after w) := by
  induction hlen : packet.length using Nat.strong_induction_on generalizing packet context with
  | _ n ih =>
  by_cases hn : newlineChar ∈ packet
  · obtain ⟨line, rest, rfl, hline⟩ := List.eq_append_cons_of_mem hn
    rw [decodeUpdate_line hline, decodeUpdate_line hline, decodeQp_after]
    cases decodeQp digits checked (line.rdropWhile isLwsp) .lineEnd context with
    | error f => rfl
    | ok context =>
      exact ih rest.length (by rw [← hlen, List.length_append, List.length_cons]; omega) rest
        context rfl
  · rw [decodeUpdate_last hn, decodeUpdate_last hn, decodeQp_after]

theorem decodeRest_after (packets context) :
    decodeRest digits checked packets (context.after w) =
      (decodeRest digits checked packets context).map (w ++ ·) := by
  induction packets generalizing context with
  | nil =>
    rw [decodeRest_nil, decodeRest_nil, decodeFinalize, decodeFinalize, decodeQp_after]
    cases decodeQp digits checked [] .inputEnd context <;> rfl
  | cons packet packets ih =>
    rw [decodeRest_cons, decodeRest_cons, decodeUpdate_after]
    cases decodeUpdate digits checked packet context with
    | error f => rfl
    | ok context => exact ih context

theorem decodeUpdate_nil (context) : decodeUpdate digits checked [] context = .ok context := by
  obtain ⟨pending, port⟩ := context
  rw [decodeUpdate_last (by simp), decodeQp]
  show begin digits checked [] _ >>= finish .partial_ [] = _
  have hb : begin digits checked [] ⟨pending, port⟩ = .ok ⟨pending, port⟩ := by
    cases pending <;> exact loop_nil _
  rw [hb]
  rfl

/-! ## Texts that are decoded to one output -/

/-- From here on every way of cutting `s` leaves `out` on the port. -/
def Agrees (digits : DecimalDigits) (checked : Bool) (context : Decoding) (s out : List Nat) :
    Prop :=
  ∀ packets : List (List Nat), packets.flatten = s →
    decodeRest digits checked packets context = .ok out

section Agrees

variable {context : Decoding} {port s out w q v : List Nat}

theorem Agrees.step (packet) (h : Agrees digits checked context (packet ++ s) out) :
    ∃ context', decodeUpdate digits checked packet context = .ok context' ∧
      Agrees digits checked context' s out := by
  have hall (packets : List (List Nat)) (hp : packets.flatten = s) :
      decodeUpdate digits checked packet context >>= decodeRest digits checked packets = .ok out := by
    rw [← decodeRest_cons]
    exact h (packet :: packets) (by rw [List.flatten_cons, hp])
  cases hu : decodeUpdate digits checked packet context with
  | error f =>
    have := hall [s] (by simp)
    rw [hu] at this
    cases this
  | ok context' =>
    refine ⟨context', rfl, fun packets hp => ?_⟩
    have := hall packets hp
    rwa [hu] at this

theorem Agrees.output {pending} (h : Agrees digits checked ⟨pending, port⟩ s out) :
    ∃ written, decodeRest digits checked [s] ⟨pending, []⟩ = .ok written ∧
      out = port ++ written := by
  have h1 := h [s] (by simp)
  have hafter : (⟨pending, port⟩ : Decoding) = Decoding.after port ⟨pending, []⟩ := by
    simp [Decoding.after]
  rw [hafter, decodeRest_after] at h1
  obtain ⟨written, hr, h1⟩ := bind_eq_ok h1
  exact ⟨written, hr, (Except.ok.inj h1).symm⟩

theorem begin_none (slice port) :
    begin digits checked slice ⟨.none, port⟩ = loop digits checked slice ⟨.none, port⟩ := by
  cases slice <;> rfl

theorem rdropWhile_core (hlast : ∀ c, q.getLast? = some c → isLwsp c = false)
    (hv : v.all isLwsp = true) :
    (q ++ v).rdropWhile isLwsp = q ∧ (q ++ v).rtakeWhile isLwsp = v := by
  have hq : q.rdropWhile isLwsp = q := by
    rw [List.rdropWhile_eq_self_iff]
    intro hne
    rw [hlast _ (List.getLast?_eq_some_getLast hne)]
    exact Bool.false_ne_true
  have hdrop : (q ++ v).rdropWhile isLwsp = q := by
    induction v using List.reverseRecOn with
    | nil => rw [List.append_nil, hq]
    | append_singleton v c ih =>
      rw [List.all_append, Bool.and_eq_true] at hv
      rw [← List.append_assoc, List.rdropWhile_concat_pos _ _ _ (by simpa using hv.2)]
      exact ih hv.1
  have hsplit : (q ++ v).rdropWhile isLwsp ++ (q ++ v).rtakeWhile isLwsp = q ++ v :=
    List.rdropWhile_append_rtakeWhile
  rw [hdrop] at hsplit
  exact ⟨hdrop, List.append_cancel_left hsplit⟩

theorem not_mem_lwsp (hv : v.all isLwsp = true) : newlineChar ∉ v := by
  intro hmem
  have := List.all_eq_true.mp hv _ hmem
  simp [not_isLwsp_newline] at this

theorem Agrees.packet (hw : w.all isLwsp = true) (hv : v.all isLwsp = true)
    (hne : q ≠ []) (hn : newlineChar ∉ q) (hlast : ∀ c, q.getLast? = some c → isLwsp c = false)
    (h : Agrees digits checked ⟨.none, port⟩ (w ++ q ++ v ++ s) out) :
    ∃ context1 context2, loop digits checked q ⟨.none, port ++ w⟩ = .ok context1 ∧
      finish .partial_ v context1 = .ok context2 ∧ Agrees digits checked context2 s out := by
  obtain ⟨context2, h2, hagrees⟩ := h.step _
  have hn' : newlineChar ∉ w ++ q ++ v := by
    simp only [List.mem_append, not_or]
    exact ⟨⟨not_mem_lwsp hw, hn⟩, not_mem_lwsp hv⟩
  obtain ⟨hdrop, htake⟩ := rdropWhile_core (q := w ++ q) (v := v)
    (fun c hc => hlast c (by rwa [List.getLast?_append_of_ne_nil _ hne] at hc)) hv
  rw [decodeUpdate_last hn', decodeQp, hdrop, htake, begin_none, loop_lwsp hw] at h2
  obtain ⟨context1, h1, h2⟩ := bind_eq_ok h2
  exact ⟨context1, context2, h1, h2, hagrees⟩

theorem Agrees.line (hw : w.all isLwsp = true) (hne : q = [] → w = []) (hn : newlineChar ∉ q)
    (hlast : ∀ c, q.getLast? = some c → isLwsp c = false)
    (h : Agrees digits checked ⟨.none, port⟩ (w ++ (q ++ newlineChar :: s)) out) :
    ∃ context1 context2, loop digits checked q ⟨.none, port ++ w⟩ = .ok context1 ∧
      finish .lineEnd [] context1 = .ok context2 ∧ Agrees digits checked context2 s out := by
  have hs : w ++ (q ++ newlineChar :: s) = w ++ q ++ [newlineChar] ++ s := by simp
  rw [hs] at h
  obtain ⟨context2, h2, hagrees⟩ := h.step _
  have hn' : newlineChar ∉ w ++ q := by
    rw [List.mem_append, not_or]
    exact ⟨not_mem_lwsp hw, hn⟩
  obtain ⟨hdrop, htake⟩ := rdropWhile_core (q := w ++ q) (v := []) (fun c hc => by
    rcases eq_or_ne q [] with hq | hq
    · simp [hq, hne hq] at hc
    · exact hlast c (by rwa [List.getLast?_append_of_ne_nil _ hq] at hc)) rfl
  rw [List.append_nil] at hdrop htake
  rw [decodeUpdate_line hn', hdrop, decodeQp, hdrop, htake, begin_none, loop_lwsp hw] at h2
  obtain ⟨context3, h3, h2⟩ := bind_eq_ok h2
  obtain ⟨context1, h1, h3⟩ := bind_eq_ok h3
  have heq : decodeUpdate digits checked [] context3 = .ok context3 := decodeUpdate_nil context3
  obtain rfl : context3 = context2 := Except.ok.inj (heq.symm.trans h2)
  exact ⟨context1, context3, h1, h3, hagrees⟩

theorem Agrees.not_lwsp_newline (hv : v.all isLwsp = true) (hne : v ≠ []) :
    ¬ Agrees digits checked ⟨.none, port⟩ (v ++ newlineChar :: s) out := by
  intro h
  obtain ⟨hdrop, htake⟩ := rdropWhile_core (q := []) (by simp) hv
  rw [List.nil_append] at hdrop htake
  -- the line in one packet
  have hjoined : Agrees digits checked ⟨.none, port ++ [newlineChar]⟩ s out := by
    obtain ⟨context1, h1, hagrees⟩ :=
      Agrees.step (s := s) (v ++ [newlineChar]) (by simpa using h)
    rw [decodeUpdate_line (not_mem_lwsp hv), hdrop, decodeQp, List.rdropWhile_nil,
      begin_none, loop_nil] at h1
    have h2 : decodeUpdate digits checked [] ⟨.none, port ++ [newlineChar]⟩ = .ok context1 := h1
    rw [decodeUpdate_nil] at h2
    rwa [Except.ok.inj h2]
  -- the newline in the second packet
  have hsplit : Agrees digits checked ⟨.none, port⟩ s out := by
    obtain ⟨context1, h1, hagrees⟩ := h.step _
    rw [decodeUpdate_last (not_mem_lwsp hv), decodeQp, hdrop, htake, begin_none, loop_nil] at h1
    obtain rfl : (⟨.string v, port⟩ : Decoding) = context1 := by
      simpa [bind, Except.bind, finish, decodeQpPendingString, hne, pure, Except.pure] using h1
    obtain ⟨context2, h2, hagrees⟩ :=
      Agrees.step (s := s) ([] ++ [newlineChar]) (by simpa using hagrees)
    rw [decodeUpdate_line (by simp), List.rdropWhile_nil, decodeQp, List.rdropWhile_nil] at h2
    have hb : begin digits checked [] ⟨.string v, port⟩ = .ok ⟨.string v, port⟩ := loop_nil _
    rw [hb] at h2
    have h3 : decodeUpdate digits checked [] ⟨.none, port⟩ = .ok context2 := h2
    rw [decodeUpdate_nil] at h3
    rwa [Except.ok.inj h3]
  obtain ⟨written1, hwritten1, hout1⟩ := hjoined.output
  obtain ⟨written2, hwritten2, hout2⟩ := hsplit.output
  obtain rfl : written1 = written2 := Except.ok.inj (hwritten1.symm.trans hwritten2)
  have := congrArg List.length (hout1.symm.trans hout2)
  simp at this

theorem hexChar_not_hex {c1 c2} (h12 : (isHex digits c1 && isHex digits c2) = false) {r}
    (h : hexChar digits checked c1 c2 = .ok r) : ∃ g, r = some g ∧ g ≠ equals := by
  have hlow (d : Nat) (hd : d < 16) : d <<< 4 ||| 0 ≠ equals ∧ 0 <<< 4 ||| d ≠ equals := by
    rw [Nat.or_zero, Nat.zero_shiftLeft, Nat.zero_or, Nat.shiftLeft_eq]
    unfold equals
    omega
  rw [hexChar] at h
  rw [isHex, isHex] at h12
  cases h1 : charToDigit digits c1 with
  | none =>
    cases checked with
    | true =>
      rw [h1] at h
      cases h
    | false =>
      cases h2 : charToDigit digits c2 with
      | none =>
        obtain rfl : some 0 = r := by
          simpa [h1, h2, digitLt16, bind, Except.bind, pure, Except.pure] using h
        exact ⟨0, rfl, by decide⟩
      | some d =>
        have hd := charToDigit_lt h2
        obtain rfl : some (0 <<< 4 ||| d) = r := by
          simpa [h1, h2, digitLt16, bind, Except.bind, pure, Except.pure, hd] using h
        exact ⟨_, rfl, (hlow d hd).2⟩
  | some d =>
    have hd := charToDigit_lt h1
    cases h2 : charToDigit digits c2 with
    | some d2 =>
      rw [h1, h2] at h12
      cases h12
    | none =>
      cases checked with
      | true =>
        rw [h1, h2] at h
        simp [digitLt16, bind, Except.bind, hd] at h
      | false =>
        obtain rfl : some (d <<< 4 ||| 0) = r := by
          simpa [h1, h2, digitLt16, bind, Except.bind, pure, Except.pure, hd] using h
        exact ⟨_, rfl, (hlow d hd).1⟩

theorem Agrees.not_escape {c1 c2 z} (hw : w.all isLwsp = true)
    (hn : newlineChar ∉ equals :: c1 :: c2 :: q)
    (hlast : ∀ c, (equals :: c1 :: c2 :: q).getLast? = some c → isLwsp c = false)
    (h12 : (isHex digits c1 && isHex digits c2) = false) :
    ¬ Agrees digits checked ⟨.none, port⟩ (w ++ equals :: c1 :: c2 :: q ++ s)
      (port ++ w ++ equals :: z) := by
  intro h
  obtain ⟨context1, context2, h1, h2, hagrees⟩ :=
    Agrees.packet (v := []) hw rfl (List.cons_ne_nil _ _) hn hlast (by simpa using h)
  rw [loop_equals, handleEquals_two, decodeQpHex] at h1
  cases hchar : hexChar digits checked c1 c2 with
  | error f =>
    rw [hchar] at h1
    cases h1
  | ok r =>
    obtain ⟨g, rfl, hg⟩ := hexChar_not_hex h12 hchar
    rw [hchar] at h1
    have hloop : loop digits checked q ⟨.none, port ++ w ++ [g]⟩ = .ok context1 := h1
    rw [show (⟨.none, port ++ w ++ [g]⟩ : Decoding) = Decoding.after (port ++ w ++ [g]) ⟨.none, []⟩ by
      simp [Decoding.after], loop_after] at hloop
    obtain ⟨context3, -, hloop⟩ := bind_eq_ok hloop
    obtain rfl : context3.after (port ++ w ++ [g]) = context1 := Except.ok.inj hloop
    obtain rfl : context3.after (port ++ w ++ [g]) = context2 := by
      simpa [finish, decodeQpPendingString, pure, Except.pure, bind, Except.bind] using h2
    obtain ⟨written, -, hout⟩ := hagrees.output
    simp at hout
    exact hg hout.1.symm

theorem exists_core (h : ¬ s.all isLwsp = true) :
    ∃ w : List Nat, ∃ c t, s = w ++ c :: t ∧ w.all isLwsp = true ∧ isLwsp c = false := by
  induction s with
  | nil => exact absurd rfl h
  | cons a s ih =>
    cases ha : isLwsp a with
    | false => exact ⟨[], a, s, rfl, rfl, ha⟩
    | true =>
      obtain ⟨w, c, t, rfl, hw, hc⟩ := ih (by simpa [ha] using h)
      exact ⟨a :: w, c, t, rfl, by simp [ha, hw], hc⟩

theorem lwsp_core {c t} (hw : w.all isLwsp = true) (hc : isLwsp c = false) (hn : c ≠ newlineChar) :
    reference digits (w ++ c :: t) = w ++ reference digits (c :: t) ∧
      isClean digits (w ++ c :: t) = isClean digits (c :: t) := by
  induction w with
  | nil => exact ⟨rfl, rfl⟩
  | cons a w ih =>
    rw [List.all_cons, Bool.and_eq_true] at hw
    obtain ⟨ih1, ih2⟩ := ih hw.2
    have hdrops : dropsLwsp (w ++ c :: t) = false := by
      rw [List.append_cons]
      refine dropsLwsp_of_last (c := c) (by simp) hc ?_
      rw [List.mem_append, not_or]
      exact ⟨not_mem_lwsp hw.2, by simpa using Ne.symm hn⟩
    have hhead : (w ++ c :: t).head? ≠ some newlineChar := by
      rcases w with _ | ⟨b, w⟩
      · simpa using hn
      · have := not_mem_lwsp hw.2
        simp only [List.mem_cons, not_or] at this
        simpa using Ne.symm this.1
    rw [List.cons_append]
    constructor
    · rw [reference_lwsp hw.1 hdrops, ih1]
      rfl
    · rw [isClean_lwsp hw.1, ih2, bne_iff_ne.mpr hhead, Bool.true_and]

theorem Agrees.not_pending {c} (hw : w.all isLwsp = true) (hq : newlineChar ∉ q) (hne : q ≠ [])
    (hlast : ∀ c, q.getLast? = some c → isLwsp c = false) (hc : isLwsp c = true) {p port1}
    (hloop : loop digits checked q ⟨.none, port ++ w⟩ = .ok ⟨.char p, port1⟩) :
    ¬ Agrees digits checked ⟨.none, port⟩ (w ++ q ++ c :: s) out := by
  intro h
  obtain ⟨context1, context2, h1, h2, -⟩ :=
    Agrees.packet (v := [c]) hw (by simp [hc]) hne hq hlast (by simpa using h)
  obtain rfl := Except.ok.inj (hloop.symm.trans h1)
  cases h2

theorem not_mem_pair {c} (hn : c ≠ newlineChar) : newlineChar ∉ [equals, c] := by
  rw [List.mem_cons, List.mem_singleton, not_or]
  exact ⟨by decide, Ne.symm hn⟩

theorem loop_pair (c context) : loop digits checked [equals, c] context =
    .ok (if isHex digits c then { context with pending := .char c }
      else context.write [equals, c]) :=
  (loop_equals _ _).trans (handleEquals_one _ _)

theorem Agrees.clean_escape {c1 c2 t} (hw : w.all isLwsp = true) (hn1 : c1 ≠ newlineChar)
    (hl1 : isLwsp c1 = false) (hn2 : c2 ≠ newlineChar)
    (h12 : (isHex digits c1 && isHex digits c2) = false)
    (h : Agrees digits checked ⟨.none, port⟩ (w ++ equals :: c1 :: c2 :: t)
      (port ++ w ++ reference digits (equals :: c1 :: c2 :: t))) :
    isHex digits c1 = false ∧ (c2 :: t).all isLwsp = true := by
  have hlast1 : ∀ c, [equals, c1].getLast? = some c → isLwsp c = false := by simp [hl1]
  have hex_lwsp (h1 : isHex digits c1 = true) : ¬ isLwsp c2 = true := fun h2 => by
    have hloop : loop digits checked [equals, c1] ⟨.none, port ++ w⟩ = _ := loop_pair c1 _
    rw [h1, if_pos rfl] at hloop
    exact Agrees.not_pending (s := t) hw (not_mem_pair hn1) (by simp) hlast1 h2 hloop
      (by simpa using h)
  by_cases hall : (c2 :: t).all isLwsp = true
  · refine ⟨?_, hall⟩
    rw [List.all_cons, Bool.and_eq_true] at hall
    exact Bool.eq_false_iff.mpr fun h1 => hex_lwsp h1 hall.1
  exfalso
  have href : reference digits (equals :: c1 :: c2 :: t) =
      equals :: reference digits (c1 :: c2 :: t) := by
    rw [reference_cons, if_pos rfl, if_neg (by simp [isSoftBreak_cons hl1, hn1])]
    dsimp only
    rw [if_neg hn2, if_neg (by simp [h12]), if_neg hall]
  rw [href] at h
  obtain ⟨v, x, u, hsplit, hv, hx⟩ := exists_core hall
  rcases v with _ | ⟨a, v⟩
  · -- the second character is not whitespace
    obtain ⟨rfl, rfl⟩ := List.cons.inj hsplit
    refine Agrees.not_escape (q := []) (s := t) hw ?_ (by simp [hx]) h12 (by simpa using h)
    simp only [List.mem_cons, List.not_mem_nil, or_false, not_or]
    exact ⟨by decide, Ne.symm hn1, Ne.symm hn2⟩
  · obtain ⟨rfl, rfl⟩ := List.cons.inj hsplit
    rw [List.all_cons, Bool.and_eq_true] at hv
    have h1 : isHex digits c1 = false := Bool.eq_false_iff.mpr fun h1 => hex_lwsp h1 hv.1
    by_cases hxn : x = newlineChar
    · -- whitespace and a newline
      subst hxn
      obtain ⟨context1, context2, hloop, hfinish, hagrees⟩ := Agrees.packet (q := [equals, c1])
        (v := []) (s := c2 :: v ++ newlineChar :: u) hw rfl (by simp) (not_mem_pair hn1) hlast1
        (by simpa using h)
      rw [loop_pair, h1, if_neg Bool.false_ne_true] at hloop
      obtain rfl := Except.ok.inj hloop
      obtain rfl := Except.ok.inj hfinish
      exact Agrees.not_lwsp_newline (v := c2 :: v) (by simp [hv]) (by simp) hagrees
    · -- whitespace and something else
      have hlast : ∀ c, ((equals :: c1 :: c2 :: v) ++ [x]).getLast? = some c → isLwsp c = false :=
        fun c hc => by
          rw [List.getLast?_concat] at hc
          rwa [← Option.some.inj hc]
      refine Agrees.not_escape (q := v ++ [x]) (s := u) hw ?_ hlast h12 (by simpa using h)
      have hnv := not_mem_lwsp (v := c2 :: v) (by simp [hv])
      simp only [List.mem_cons, List.mem_append, List.not_mem_nil, or_false, not_or] at hnv ⊢
      exact ⟨by decide, Ne.symm hn1, hnv.1, hnv.2, Ne.symm hxn⟩

end Agrees

theorem isClean_of_agrees (port) {s}
    (h : Agrees digits checked ⟨.none, port⟩ s (port ++ reference digits s)) :
    isClean digits s = true := by
  induction hlen : s.length using Nat.strong_induction_on generalizing s port with
  | _ n ih =>
  by_cases hall : s.all isLwsp = true
  · exact isClean_all_lwsp hall
  obtain ⟨w, c, t, rfl, hw, hc⟩ := exists_core hall
  simp only [List.length_append, List.length_cons] at hlen
  by_cases hn : c = newlineChar
  · subst hn
    rcases eq_or_ne w [] with rfl | hne
    · obtain ⟨context1, context2, h1, h2, hagrees⟩ :=
        Agrees.line (q := []) rfl (fun _ => rfl) (by simp) (by simp) h
      rw [loop_nil, List.append_nil] at h1
      obtain rfl := Except.ok.inj h1
      obtain rfl : (⟨.none, port ++ [newlineChar]⟩ : Decoding) = context2 := Except.ok.inj h2
      rw [List.nil_append, isClean_plain (by decide) not_isLwsp_newline]
      refine ih t.length (by omega) (port ++ [newlineChar]) ?_ rfl
      simpa [reference_newline] using hagrees
    · exact absurd h (Agrees.not_lwsp_newline hw hne)
  obtain ⟨href, hcl⟩ := lwsp_core (t := t) hw hc hn
  rw [hcl]
  rw [href, ← List.append_assoc] at h
  by_cases he : c = equals
  · subst he
    rcases t with _ | ⟨c1, t⟩
    · rw [isClean_cons, if_pos rfl]
    simp only [List.length_cons] at hlen
    have heloop : loop digits checked [equals] ⟨.none, port ++ w⟩ =
        .ok ⟨.char equals, port ++ w⟩ := (loop_equals _ _).trans (handleEquals_nil _)
    have helast : ∀ c, [equals].getLast? = some c → isLwsp c = false := by
      simp [not_isLwsp_equals]
    by_cases hn1 : c1 = newlineChar
    · -- a soft line break
      subst hn1
      obtain ⟨context1, context2, h1, h2, hagrees⟩ :=
        Agrees.line (q := [equals]) hw (by simp) (by decide) helast h
      obtain rfl := Except.ok.inj (heloop.symm.trans h1)
      obtain rfl : (⟨.none, port ++ w⟩ : Decoding) = context2 := Except.ok.inj h2
      rw [reference_soft] at hagrees
      rw [isClean_soft]
      exact ih t.length (by omega) _ hagrees rfl
    cases hl1 : isLwsp c1 with
    | true =>
      exact absurd (by simpa using h) (Agrees.not_pending (s := t) (q := [equals]) hw (by decide)
        (by simp) helast hl1 heloop)
    | false =>
    rcases t with _ | ⟨c2, t⟩
    · exact isClean_equals_one hl1
    simp only [List.length_cons] at hlen
    have hlast1 : ∀ c, [equals, c1].getLast? = some c → isLwsp c = false := by simp [hl1]
    rw [isClean_equals_two hn1 hl1]
    by_cases hn2 : c2 = newlineChar
    · -- one character is left in the line
      subst hn2
      rw [if_pos rfl]
      obtain ⟨context1, context2, h1, h2, hagrees⟩ :=
        Agrees.line (q := [equals, c1]) hw (by simp) (not_mem_pair hn1) hlast1 h
      rw [loop_pair] at h1
      obtain rfl := Except.ok.inj h1
      cases hh1 : isHex digits c1 with
      | true =>
        have hne := ne_equals_of_isHex hh1
        rw [hh1, if_pos rfl] at h2
        obtain rfl : (⟨.none, port ++ w ++ [equals, c1]⟩ : Decoding) = context2 := by
          simpa [finish, hne, Decoding.write] using h2
        rw [(reference_digit hh1).1] at hagrees
        exact ih t.length (by omega) (port ++ w ++ [equals, c1])
          (by simpa using hagrees) rfl
      | false =>
        rw [hh1, if_neg Bool.false_ne_true] at h2
        obtain rfl : (⟨.none, port ++ w ++ [equals, c1] ++ [newlineChar]⟩ : Decoding) = context2 :=
          Except.ok.inj h2
        rw [reference_single hl1 hn1 hh1 (.inr rfl), reference_newline] at hagrees
        exact ih t.length (by omega) (port ++ w ++ [equals, c1] ++ [newlineChar])
          (by simpa using hagrees) rfl
    rw [if_neg hn2]
    cases h12 : isHex digits c1 && isHex digits c2 with
    | false =>
      obtain ⟨hh1, hall2⟩ := Agrees.clean_escape hw hn1 hl1 hn2 h12 h
      rw [hh1, if_neg Bool.false_ne_true]
      exact hall2
    | true =>
      -- an escape
      rw [Bool.and_eq_true] at h12
      rw [h12.1, if_pos rfl, h12.2, Bool.true_and]
      have hl2 := not_isLwsp_of_isHex h12.2
      obtain ⟨context1, context2, h1, h2, hagrees⟩ := Agrees.packet (q := [equals, c1, c2])
        (v := []) (s := t) hw rfl (by simp)
        (by
          simp only [List.mem_cons, List.not_mem_nil, or_false, not_or]
          exact ⟨by decide, Ne.symm hn1, Ne.symm hn2⟩)
        (by simp [hl2]) (by simpa using h)
      rw [loop_escape _ _ h12.1 h12.2, loop_nil] at h1
      obtain rfl := Except.ok.inj h1
      obtain rfl := Except.ok.inj h2
      rw [reference_escape h12.1 h12.2] at hagrees
      exact ih t.length (by omega) (port ++ w ++ [hexValue digits c1 c2])
        (by simpa [Decoding.write] using hagrees) rfl
  · -- a plain character, or one that is dropped
    obtain ⟨context1, context2, h1, h2, hagrees⟩ := Agrees.packet (q := [c]) (v := []) (s := t) hw
      rfl (by simp) (by simpa using Ne.symm hn) (by simp [hc]) (by simpa using h)
    rw [loop_plain _ _ he, loop_nil] at h1
    obtain rfl := Except.ok.inj h1
    obtain rfl := Except.ok.inj h2
    rw [reference_plain he hc hn, ← List.append_assoc] at hagrees
    rw [isClean_plain he hc]
    exact ih t.length (by omega) (port ++ w ++ if isQpEncoded c then [] else [c])
      (by simpa [Decoding.write] using hagrees) rfl

/-- **Decoding that does not depend on packet boundaries.** Every way of cutting a text makes the
decoder write what one packet makes it write, and that is what the text stands for, exactly when
the text is clean. -/
theorem decodePackets_independent_iff (digits : DecimalDigits) (checked : Bool) (s : List Nat) :
    ((∀ packets : List (List Nat), packets.flatten = s →
        decodePackets digits checked packets = decodePackets digits checked [s]) ∧
      decodePackets digits checked [s] = .ok (reference digits s)) ↔ isClean digits s = true := by
  constructor
  · rintro ⟨hsame, hone⟩
    refine isClean_of_agrees [] (show Agrees digits checked ⟨.none, []⟩ s _ from fun packets hp => ?_)
    rw [List.nil_append, ← hone]
    exact hsame packets hp
  · intro hclean
    have hone : decodePackets digits checked [s] = _ := decodePackets_clean hclean [s] (by simp)
    exact ⟨fun packets hp => (decodePackets_clean hclean packets hp).trans hone.symm, hone⟩

/-- `"a"`, a space and a newline: cut before the newline, the newline is lost. An equals sign, a
space and a newline: cut before the newline, the decoder signals an error. -/
theorem decodePackets_depends_on_packets :
    decodePackets asciiDigits true [[0x61, space, newlineChar]] = .ok [0x61, newlineChar] ∧
      decodePackets asciiDigits true [[0x61, space], [newlineChar]] = .ok [0x61] ∧
      decodePackets asciiDigits true [[equals, space, newlineChar]] = .ok [] ∧
      decodePackets asciiDigits true [[equals, space], [newlineChar]] = .error .wrongType := by
  decide +kernel

end MitScheme.Runtime.QuotedPrintable
