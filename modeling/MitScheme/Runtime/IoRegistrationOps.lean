import MitScheme.Runtime.IoRegistrationLists

/-! # Registering and delivering

The operations that put a tentry on the lists, and the delivery of select results. -/

namespace MitScheme.Runtime.IoRegistration
open Lib.DoublyLinked Function
open ThreadKernel (ThreadId)

namespace Io

variable {s s' : Io} {gs : List Group} {mode : Mode}

/-! ### Registering -/

/-- The tentry `t` is new, and nothing else is. -/
structure Adds (s s' : Io) (t : TentryId) (descriptor : Descriptor) (mode : Mode) : Prop where
  key : ∀ d < s.dentryCount, s'.key d = s.key d
  dentryCount : s.dentryCount ≤ s'.dentryCount
  tentryCount : s'.tentryCount = s.tentryCount
  signals : s'.signals = s.signals
  kept : ∀ u, u ≠ t → (s'.tentries u).dentry = (s.tentries u).dentry
  fields : ∀ u, (s'.tentries u).thread = (s.tentries u).thread ∧
    (s'.tentries u).event = (s.tentries u).event
  added : ∃ d < s'.dentryCount, (s'.tentries t).dentry = some d ∧ s'.key d = (descriptor, mode)

theorem Shape.addDentry (h : s.Shape gs) {descriptor} (hmode : mode.Polled)
    (hkey : (descriptor, mode) ∉ gs.map fun g => s.key g.1) {t} (ht : t ∉ gs.flatMap Prod.snd)
    (hcount : t < s.tentryCount) (hthread : (s.tentries t).thread ≠ none) :
    ∃ s', s.addDentry descriptor mode t = .done s' ∧
      s'.Shape ((s.dentryCount, [t]) :: gs) ∧ Adds s s' t descriptor mode := by
  obtain ⟨n, hn, hdecode⟩ := hmode.encode
  have hfresh : ∀ g ∈ gs, g.1 ≠ s.dentryCount := fun g hg => Nat.ne_of_lt (h.dentryCount g hg)
  have hnotin : s.dentryCount ∉ gs.map Prod.fst := by
    intro hm
    obtain ⟨g, hg, heq⟩ := List.mem_map.mp hm
    exact hfresh g hg heq
  have htnot : ∀ g ∈ gs, ∀ u ∈ g.2, u ≠ t := fun g hg u hu hut =>
    ht (List.mem_flatMap.mpr ⟨g, hg, hut ▸ hu⟩)
  generalize hs' : (s.addDentry descriptor mode t).io = s'
  have hdone : s.addDentry descriptor mode t = .done s' := by
    rw [← hs', Io.addDentry, hn]
    rfl
  have hregistry : s'.registry = osAddToSelectRegistry descriptor n s.registry := by
    rw [← hs', Io.addDentry, hn]
    dsimp only [Outcome.io]
    split <;> rfl
  have hregs : s'.registrations = some s.dentryCount := by
    rw [← hs', Io.addDentry, hn]
    rfl
  have hnew : s'.dentries s.dentryCount =
      ⟨descriptor, mode, some t, some t, none, s.registrations⟩ := by
    rw [← hs', Io.addDentry, hn]
    dsimp only [Outcome.io]
    split
    case h_1 first hfirst =>
      have hne : s.dentryCount ≠ first := by
        intro heq
        rw [h.first, ← heq] at hfirst
        exact hnotin (List.mem_of_mem_head? hfirst)
      simp [setDentry, setTentry, hne]
    case h_2 => simp [setTentry]
  have hold : ∀ e, e ≠ s.dentryCount → s'.dentries e = { s.dentries e with
      prev := if s.registrations = some e then some s.dentryCount else s.dprev e } := by
    intro e he
    rw [← hs', Io.addDentry, hn]
    dsimp only [Outcome.io, dprev]
    split
    case h_1 first hfirst =>
      by_cases hef : e = first
      · subst hef
        simp [setDentry, setTentry, he, hfirst]
      · simp [setDentry, setTentry, he, hef, hfirst, Ne.symm hef]
    case h_2 hfirst => simp [setTentry, he, hfirst]
  have htentries : s'.tentries = update s.tentries t
      { s.tentries t with dentry := some s.dentryCount, prev := none, next := none } := by
    rw [← hs', Io.addDentry, hn]
    dsimp only [Outcome.io]
    split <;> rfl
  have hcounts : s'.dentryCount = s.dentryCount + 1 ∧ s'.tentryCount = s.tentryCount ∧
      s'.signals = s.signals := by
    rw [← hs', Io.addDentry, hn]
    dsimp only [Outcome.io]
    split <;> exact ⟨rfl, rfl, rfl⟩
  have hkeynew : s'.key s.dentryCount = (descriptor, mode) := by rw [key, hnew]
  have hkeyold : ∀ e, e ≠ s.dentryCount → s'.key e = s.key e := by
    intro e he
    rw [key, hold e he, key]
  have hkeys : (gs.map fun g => s'.key g.1) = gs.map fun g => s.key g.1 :=
    List.map_congr_left fun g hg => hkeyold g.1 (hfresh g hg)
  have htent : ∀ u, u ≠ t → s'.tentries u = s.tentries u := by
    intro u hu
    rw [htentries, update_of_ne hu]
  have htnew : s'.tentries t =
      { s.tentries t with dentry := some s.dentryCount, prev := none, next := none } := by
    rw [htentries, update_self]
  refine ⟨s', hdone, ⟨⟨?_, ?_, ?_, ?_, ?_, ?_⟩, ?_, ?_⟩, ?_⟩
  · refine h.linked.cons hnotin ?_ ?_ ?_ ?_ ?_
    · rw [dprev, hnew]
    · rw [dnext, hnew, ← h.first]
    · intro e he
      have hne : e ≠ s.dentryCount := fun heq =>
        hnotin (heq ▸ List.mem_of_mem_head? he)
      rw [dprev, hold e hne, h.first]
      exact if_pos he
    · intro e he hne
      rw [dprev, hold e fun heq => hnotin (heq ▸ he), h.first]
      exact if_neg hne
    · intro e he
      rw [dnext, hold e fun heq => hnotin (heq ▸ he), dnext]
  · exact hregs
  · intro g hg
    rcases List.mem_cons.mp hg with rfl | hg
    · refine ⟨⟨?_, ?_, List.nodup_singleton t⟩, ?_, ?_, ?_, ?_, ?_⟩
      · exact ⟨by rw [tnext, htnew]; rfl, trivial⟩
      · exact ⟨by rw [tprev, htnew]; rfl, trivial⟩
      · rw [hnew]
        rfl
      · rw [hnew]
        rfl
      · intro u hu
        rw [List.mem_singleton.mp hu, htnew]
      · intro u hu
        rw [List.mem_singleton.mp hu, htnew]
        exact hthread
      · rw [hnew]
        exact hmode
    · refine (h.group g hg).congr ?_ ?_ ?_ fun u hu => htent u (htnot g hg u hu)
      · rw [hold g.1 (hfresh g hg)]
      · rw [hold g.1 (hfresh g hg)]
      · rw [hold g.1 (hfresh g hg)]
  · rw [List.map_cons, hkeys, hkeynew]
    exact List.nodup_cons.mpr ⟨hkey, h.keys⟩
  · intro g hg
    rw [hcounts.1]
    rcases List.mem_cons.mp hg with rfl | hg
    · exact Nat.lt_succ_self _
    · exact Nat.lt_succ_of_lt (h.dentryCount g hg)
  · intro g hg u hu
    rw [hcounts.2.1]
    rcases List.mem_cons.mp hg with rfl | hg
    · rw [List.mem_singleton.mp hu]
      exact hcount
    · exact h.tentryCount g hg u hu
  · rw [hregistry]
    exact h.registryOk.add _ hdecode
  · intro fd m
    rw [hregistry, asks_add hmode hn, h.registry, List.map_cons, hkeys, hkeynew, List.mem_cons,
      or_comm]
  · refine ⟨fun d hd => hkeyold d (Nat.ne_of_lt hd), ?_, hcounts.2.1, hcounts.2.2, ?_, ?_, ?_⟩
    · rw [hcounts.1]
      exact Nat.le_succ _
    · intro u hu
      rw [htent u hu]
    · intro u
      by_cases hu : u = t
      · rw [hu, htnew]
        exact ⟨rfl, rfl⟩
      · rw [htent u hu]
        exact ⟨rfl, rfl⟩
    · refine ⟨s.dentryCount, ?_, ?_, hkeynew⟩
      · rw [hcounts.1]
        exact Nat.lt_succ_self _
      · rw [htnew]

theorem addTentry_eq {d p t} (hlast : (s.dentries d).lastTentry = some p) (hpt : p ≠ t) :
    s.addTentry d t = .done { s with
      tentries := update (update s.tentries t
        { s.tentries t with dentry := some d, prev := some p, next := none }) p
        { s.tentries p with next := some t }
      dentries := update s.dentries d { s.dentries d with lastTentry := some t } } := by
  simp only [Io.addTentry, hlast, setTentry, setDentry, update_of_ne hpt]

theorem Shape.addTentry {pre post g} (h : s.Shape (pre ++ g :: post)) (hfull : g.2 ≠ []) {t}
    (ht : t ∉ (pre ++ g :: post).flatMap Prod.snd) (hcount : t < s.tentryCount)
    (hthread : (s.tentries t).thread ≠ none) :
    ∃ s', s.addTentry g.1 t = .done s' ∧ s'.Shape (pre ++ (g.1, g.2 ++ [t]) :: post) ∧
      Adds s s' t (s.key g.1).1 (s.key g.1).2 := by
  have hg := h.group g (by simp)
  obtain ⟨p, hp⟩ : ∃ p, g.2.getLast? = some p := by
    rcases List.eq_nil_or_concat g.2 with hnil | ⟨l, p, hl⟩
    · exact absurd hnil hfull
    · exact ⟨p, by rw [hl]; simp⟩
  have hpg : p ∈ g.2 := List.mem_of_getLast? hp
  have htnot : ∀ k ∈ pre ++ g :: post, ∀ u ∈ k.2, u ≠ t := fun k hk u hu hut =>
    ht (List.mem_flatMap.mpr ⟨k, hk, hut ▸ hu⟩)
  have hpt : p ≠ t := htnot g (by simp) p hpg
  have hfst : (pre ++ (g.1, g.2 ++ [t]) :: post).map Prod.fst =
      (pre ++ g :: post).map Prod.fst := by simp
  have hother : ∀ k ∈ pre ++ post, k.1 ≠ g.1 := by
    intro k hk hkd
    have hnodup := h.linked.nodup
    rw [List.map_append, List.map_cons, List.nodup_middle, ← List.map_append] at hnodup
    refine (List.nodup_cons.mp hnodup).1 ?_
    rw [← hkd]
    exact List.mem_map_of_mem hk
  have hlast : (s.dentries g.1).lastTentry = some p := hg.last.trans hp
  obtain ⟨s', hdone, htentries, hdentries, hrest⟩ : ∃ s', s.addTentry g.1 t = .done s' ∧
      s'.tentries = update (update s.tentries t
        { s.tentries t with dentry := some g.1, prev := some p, next := none }) p
        { s.tentries p with next := some t } ∧
      s'.dentries = update s.dentries g.1
        { s.dentries g.1 with lastTentry := some t } ∧
      s'.registrations = s.registrations ∧ s'.registry = s.registry ∧
      s'.dentryCount = s.dentryCount ∧ s'.tentryCount = s.tentryCount ∧
      s'.signals = s.signals := by
    exact ⟨_, addTentry_eq hlast hpt, rfl, rfl, rfl, rfl, rfl, rfl, rfl⟩
  obtain ⟨hregs, hregistry, hdc, htc, hsig⟩ := hrest
  have hnew : s'.tentries t =
      { s.tentries t with dentry := some g.1, prev := some p, next := none } := by
    rw [htentries, update_of_ne (Ne.symm hpt), update_self]
  have hold : s'.tentries p = { s.tentries p with next := some t } := by
    rw [htentries, update_self]
  have htent : ∀ u, u ≠ t → u ≠ p → s'.tentries u = s.tentries u := by
    intro u hu hup
    rw [htentries, update_of_ne hup, update_of_ne hu]
  have hdent : s'.dentries g.1 = { s.dentries g.1 with lastTentry := some t } := by
    rw [hdentries, update_self]
  have hdent' : ∀ e, e ≠ g.1 → s'.dentries e = s.dentries e := by
    intro e he
    rw [hdentries, update_of_ne he]
  have hkey : ∀ e, s'.key e = s.key e := by
    intro e
    by_cases he : e = g.1
    · rw [he, key, hdent, key]
    · rw [key, hdent' e he, key]
  have hlinks : ∀ e, s'.dprev e = s.dprev e ∧ s'.dnext e = s.dnext e := by
    intro e
    by_cases he : e = g.1
    · rw [he, dprev, dnext, hdent]
      exact ⟨rfl, rfl⟩
    · rw [dprev, dnext, hdent' e he]
      exact ⟨rfl, rfl⟩
  have hsplit : ∀ k ∈ pre ++ (g.1, g.2 ++ [t]) :: post,
      k = (g.1, g.2 ++ [t]) ∨ k ∈ pre ++ post := by
    intro k hk
    rcases List.mem_append.mp hk with hk | hk
    · exact .inr (List.mem_append_left _ hk)
    · exact (List.mem_cons.mp hk).imp_right (List.mem_append_right _)
  refine ⟨s', hdone, ⟨⟨?_, ?_, ?_, ?_, ?_, ?_⟩, ?_, ?_⟩, ?_⟩
  · rw [hfst]
    exact h.linked.congr (fun e _ => (hlinks e).1) fun e _ => (hlinks e).2
  · rw [hregs, hfst, h.first]
  · intro k hk
    rcases hsplit k hk with rfl | hk
    · refine ⟨hg.linked.concat ?_ ?_ ?_ ?_ ?_ ?_, ?_, ?_, ?_, ?_, ?_⟩
      · exact fun hm => htnot g (by simp) t hm rfl
      · rw [tnext, hnew]
      · rw [tprev, hnew, hp]
      · intro q hq
        obtain rfl : p = q := Option.some.inj (hp.symm.trans hq)
        rw [tnext, hold]
      · intro u hu hne
        rw [tnext, htent u (htnot g (by simp) u hu) fun hup => hne (hup ▸ hp), tnext]
      · intro u hu
        by_cases hup : u = p
        · rw [hup, tprev, hold, tprev]
        · rw [tprev, htent u (htnot g (by simp) u hu) hup, tprev]
      · rw [hdent, List.head?_append_of_ne_nil _ hfull]
        exact hg.first
      · rw [hdent, List.getLast?_concat]
      · intro u hu
        rcases List.mem_append.mp hu with hu | hu
        · by_cases hup : u = p
          · rw [hup, hold]
            exact hg.dentry p hpg
          · rw [htent u (htnot g (by simp) u hu) hup]
            exact hg.dentry u hu
        · rw [List.mem_singleton.mp hu, hnew]
      · intro u hu
        rcases List.mem_append.mp hu with hu | hu
        · by_cases hup : u = p
          · rw [hup, hold]
            exact hg.thread p hpg
          · rw [htent u (htnot g (by simp) u hu) hup]
            exact hg.thread u hu
        · rw [List.mem_singleton.mp hu, hnew]
          exact hthread
      · rw [hdent]
        exact hg.polled
    · have hkm : k ∈ pre ++ g :: post := mem_of_mem_append hk
      have hkd := hdent' k.1 (hother k hk)
      refine (h.group k hkm).congr (by rw [hkd]) (by rw [hkd]) (by rw [hkd]) fun u hu => ?_
      refine htent u (htnot k hkm u hu) fun hup => ?_
      exact hother k hk (h.disjoint hkm (show g ∈ _ by simp) hu (hup ▸ hpg))
  · simp only [hkey]
    have hkeys := h.keys
    rw [List.map_append, List.map_cons] at hkeys ⊢
    exact hkeys
  · intro k hk
    rw [hdc]
    rcases hsplit k hk with rfl | hk
    · exact h.dentryCount g (by simp)
    · exact h.dentryCount k (mem_of_mem_append hk)
  · intro k hk u hu
    rw [htc]
    rcases hsplit k hk with rfl | hk
    · rcases List.mem_append.mp hu with hu | hu
      · exact h.tentryCount g (by simp) u hu
      · rw [List.mem_singleton.mp hu]
        exact hcount
    · exact h.tentryCount k (mem_of_mem_append hk) u hu
  · rw [hregistry]
    exact h.registryOk
  · intro fd m
    simp only [hkey]
    have hreg := h.registry fd m
    rw [hregistry]
    rw [List.map_append, List.map_cons] at hreg ⊢
    exact hreg
  · refine ⟨fun e _ => hkey e, Nat.le_of_eq hdc.symm, htc, hsig, ?_, ?_, ?_⟩
    · intro u hu
      by_cases hup : u = p
      · rw [hup, hold]
      · rw [htent u hu hup]
    · intro u
      by_cases hut : u = t
      · rw [hut, hnew]
        exact ⟨rfl, rfl⟩
      · by_cases hup : u = p
        · rw [hup, hold]
          exact ⟨rfl, rfl⟩
        · rw [htent u hut hup]
          exact ⟨rfl, rfl⟩
    · refine ⟨g.1, ?_, ?_, hkey g.1⟩
      · rw [hdc]
        exact h.dentryCount g (by simp)
      · rw [hnew]

structure Registers (s s' : Io) (descriptor : Descriptor) (mode : Mode) (thread : ThreadId)
    (event : Option EventId) : Prop where
  key : ∀ d < s.dentryCount, s'.key d = s.key d
  tentryCount : s'.tentryCount = s.tentryCount + 1
  signals : s'.signals = s.signals
  kept : ∀ u, u ≠ s.tentryCount → (s'.tentries u).dentry = (s.tentries u).dentry ∧
    (s'.tentries u).thread = (s.tentries u).thread ∧ (s'.tentries u).event = (s.tentries u).event
  fields : (s'.tentries s.tentryCount).thread = some thread ∧
    (s'.tentries s.tentryCount).event = event
  added : ∃ d, (s'.tentries s.tentryCount).dentry = some d ∧ s'.key d = (descriptor, mode)

theorem Shape.newTentry (h : s.Shape gs) (x : Tentry) :
    Shape { s with tentries := update s.tentries s.tentryCount x
                   tentryCount := s.tentryCount + 1 } gs := by
  refine ⟨⟨h.linked, h.first, ?_, h.keys, h.dentryCount, ?_⟩, h.registryOk, h.registry⟩
  · intro g hg
    refine (h.group g hg).congr rfl rfl rfl fun t ht => ?_
    exact update_of_ne (Nat.ne_of_lt (h.tentryCount g hg t ht)) _ _
  · exact fun g hg t ht => Nat.lt_succ_of_lt (h.tentryCount g hg t ht)

theorem Adds.registers {descriptor : Descriptor} {thread : ThreadId} {event : Option EventId}
    (h : Adds { s with
      tentries := update s.tentries s.tentryCount ⟨none, some thread, event, none, none⟩
      tentryCount := s.tentryCount + 1 } s' s.tentryCount descriptor mode) :
    Registers s s' descriptor mode thread event := by
  obtain ⟨d, -, hd⟩ := h.added
  refine ⟨h.key, h.tentryCount, h.signals, ?_, ?_, ⟨d, hd⟩⟩
  · intro u hu
    obtain ⟨hthread, hevent⟩ := h.fields u
    rw [h.kept u hu, hthread, hevent]
    dsimp only
    rw [update_of_ne hu]
    exact ⟨rfl, rfl, rfl⟩
  · obtain ⟨hthread, hevent⟩ := h.fields s.tentryCount
    rw [hthread, hevent]
    dsimp only
    rw [update_self]
    exact ⟨rfl, rfl⟩

theorem isFor_iff {descriptor d} :
    isFor descriptor mode (s.dentries d) = true ↔ s.key d = (descriptor, mode) := by
  rw [isFor, Bool.and_eq_true, decide_eq_true_iff, decide_eq_true_iff, key, Prod.mk.injEq,
    eq_comm, @eq_comm _ mode]

theorem Shape.register (h : s.Shape gs) (hfull : ∀ g ∈ gs, g.2 ≠ [])
    (descriptor : Descriptor) (hmode : mode.Polled) (thread : ThreadId) (event : Option EventId) :
    ∃ s' gs', s.registerIoThreadEvent descriptor mode thread event = .done s' ∧ s'.Shape gs' ∧
      (∀ g ∈ gs', g.2 ≠ []) ∧ (gs'.flatMap Prod.snd).Perm (gs.flatMap Prod.snd ++ [s.tentryCount]) ∧
      Registers s s' descriptor mode thread event := by
  have hok : guaranteeSelectMode mode = true := by rcases hmode with rfl | rfl <;> rfl
  have hshape := h.newTentry ⟨none, some thread, event, none, none⟩
  have ht : s.tentryCount ∉ gs.flatMap Prod.snd := by
    intro hm
    obtain ⟨g, hg, htg⟩ := List.mem_flatMap.mp hm
    exact Nat.lt_irrefl _ (h.tentryCount g hg _ htg)
  have hthread : (update s.tentries s.tentryCount
      ⟨none, some thread, event, none, none⟩ s.tentryCount).thread ≠ none := by
    rw [update_self]
    exact Option.some_ne_none thread
  rw [registerIoThreadEvent, if_pos hok]
  dsimp only
  rw [hshape.toLists.search]
  cases hfind : gs.find? fun g => isFor descriptor mode (s.dentries g.1) with
  | none =>
    have hkey : (descriptor, mode) ∉ gs.map fun g => s.key g.1 := by
      intro hm
      obtain ⟨g, hg, heq⟩ := List.mem_map.mp hm
      exact List.find?_eq_none.mp hfind g hg (isFor_iff.mpr heq)
    obtain ⟨s', hs', hshape', hadds⟩ :=
      hshape.addDentry hmode hkey ht (Nat.lt_succ_self _) hthread
    refine ⟨s', _, hs', hshape', ?_, ?_, hadds.registers⟩
    · intro g hg
      rcases List.mem_cons.mp hg with rfl | hg
      · exact List.cons_ne_nil _ _
      · exact hfull g hg
    · exact (List.perm_append_singleton _ _).symm
  | some g =>
    obtain ⟨hg, pre, post, rfl, -⟩ := List.find?_eq_some_iff_append.mp hfind
    have hkey : s.key g.1 = (descriptor, mode) := isFor_iff.mp hg
    obtain ⟨s', hs', hshape', hadds⟩ :=
      hshape.addTentry (hfull g (by simp)) ht (Nat.lt_succ_self _) hthread
    refine ⟨s', _, hs', hshape', ?_, ?_, ?_⟩
    · intro k hk
      rcases List.mem_append.mp hk with hk | hk
      · exact hfull k (List.mem_append_left _ hk)
      · rcases List.mem_cons.mp hk with rfl | hk
        · exact List.append_ne_nil_of_right_ne_nil _ (List.cons_ne_nil _ _)
        · exact hfull k (by simp [hk])
    · simp only [List.flatMap_append, List.flatMap_cons, List.append_assoc]
      exact List.Perm.append_left _ (List.Perm.append_left _ List.perm_append_comm)
    · refine Adds.registers ?_
      have hadds' : Adds _ s' s.tentryCount (s.key g.1).1 (s.key g.1).2 := hadds
      rw [hkey] at hadds'
      exact hadds'

/-! ### Delivery -/

theorem mem_without {ts k} :
    k ∈ without ts gs ↔ ∃ g ∈ gs, k = (g.1, g.2.filter (· ∉ ts)) ∧ g.2.filter (· ∉ ts) ≠ [] := by
  rw [without, List.mem_filter, List.mem_map]
  constructor
  · rintro ⟨⟨g, hg, rfl⟩, hne⟩
    exact ⟨g, hg, rfl, of_decide_eq_true hne⟩
  · rintro ⟨g, hg, rfl, hne⟩
    exact ⟨⟨g, hg, rfl⟩, decide_eq_true hne⟩

/-- The signal is that of a tentry, called with what was found ready. -/
def SignalFor (s : Io) (e : Signal) : Prop :=
  (s.tentries e.tentry).thread = some e.thread ∧
    ∃ ready, e.event = (s.tentries e.tentry).event.map fun event => (event, some ready)

theorem resultLoop_spec : ∀ (results : List (Descriptor × Readiness)) (events : List Signal)
    {s : Io} {gs : List Group}, s.Shape gs → (∀ g ∈ gs, g.2 ≠ []) →
    ∃ s' new, s.resultLoop results events = .done (s'.signalAll (new ++ events)) ∧
      s'.Shape (without (new.map Signal.tentry) gs) ∧ Deletes s s' (new.map Signal.tentry) ∧
      (∀ e ∈ new, e.tentry ∈ gs.flatMap Prod.snd ∧ SignalFor s e) ∧
      ∀ result ∈ results, ∀ g ∈ gs, (s.key g.1).1 = result.1 → wants result.2 (s.key g.1).2 →
        ∃ k ∈ gs, (s.key k.1).1 = result.1 ∧ wants result.2 (s.key k.1).2 ∧
          ∃ e ∈ new, e.tentry ∈ k.2
  | [], events, s, gs, h, hfull => by
    refine ⟨s, [], rfl, ?_, Deletes.refl s, fun _ he => absurd he List.not_mem_nil,
      fun _ hr => absurd hr List.not_mem_nil⟩
    rw [List.map_nil, without_eq_self hfull fun _ _ _ _ => List.not_mem_nil]
    exact h
  | (fd, ready) :: results, events, s, gs, h, hfull => by
    unfold resultLoop
    rw [h.toLists.search]
    cases hfind : gs.find? fun g =>
        decide (fd = (s.dentries g.1).descriptor) && wants ready (s.dentries g.1).mode with
    | none =>
      obtain ⟨s', new, hs', hshape', hdel, hnew, hresults⟩ :=
        resultLoop_spec results events h hfull
      refine ⟨s', new, hs', hshape', hdel, hnew, ?_⟩
      intro result hresult g hg hgfd hgready
      rcases List.mem_cons.mp hresult with rfl | hresult
      · refine absurd ?_ (List.find?_eq_none.mp hfind g hg)
        rw [Bool.and_eq_true, decide_eq_true_iff]
        exact ⟨hgfd.symm, hgready⟩
      · exact hresults result hresult g hg hgfd hgready
    | some k =>
      have hk := List.mem_of_find?_eq_some hfind
      have hkp := List.find?_some hfind
      rw [Bool.and_eq_true, decide_eq_true_iff] at hkp
      have hgroup := h.group k hk
      obtain ⟨t, ts, hts⟩ := List.exists_cons_of_ne_nil (hfull k hk)
      have htk : t ∈ k.2 := by rw [hts]; exact List.mem_cons_self
      have hfirst : (s.dentries k.1).firstTentry = some t := by rw [hgroup.first, hts]; rfl
      obtain ⟨thread, hthread⟩ := Option.ne_none_iff_exists'.mp (hgroup.thread t htk)
      have htin : t ∈ gs.flatMap Prod.snd := List.mem_flatMap.mpr ⟨k, hk, htk⟩
      obtain ⟨s1, hs1, hshape1, hdel1⟩ := h.deleteTentry hfull htin
      obtain ⟨s', new, hs', hshape', hdel, hnew, hresults⟩ :=
        resultLoop_spec results (
          ⟨t, thread, (s.tentries t).event.map fun e => (e, some ready)⟩ :: events)
          hshape1 without_full
      refine ⟨s', new ++ [⟨t, thread, (s.tentries t).event.map fun e => (e, some ready)⟩],
        ?_, ?_, ?_, ?_, ?_⟩
      · simp only [Option.map_some, hfirst, hthread, hs1, Outcome.andThen, hs', List.append_assoc,
          List.singleton_append]
      · rw [without_without] at hshape'
        have hids : ∀ u, u ∈ new.map Signal.tentry ++ [t] ↔ u ∈ [t] ++ new.map Signal.tentry := by
          intro u
          simp [or_comm]
        rw [List.map_append, List.map_singleton, without_congr hids]
        exact hshape'
      · refine (hdel1.trans hdel).congr fun u => ?_
        simp [or_comm]
      · intro e he
        rcases List.mem_append.mp he with he | he
        · obtain ⟨hein, heth, r, her⟩ := hnew e he
          rw [flatMap_without, List.mem_filter] at hein
          obtain ⟨-, hth, hev⟩ := hdel1.kept e.tentry (of_decide_eq_true hein.2)
          exact ⟨hein.1, hth ▸ heth, r, hev ▸ her⟩
        · rw [List.mem_singleton.mp he]
          exact ⟨htin, hthread, ready, rfl⟩
      · intro result hresult g hg hgfd hgready
        rcases List.mem_cons.mp hresult with rfl | hresult
        · exact ⟨k, hk, hkp.1.symm, hkp.2, _, List.mem_append_right _ List.mem_cons_self, htk⟩
        by_cases hgone : g.2.filter (· ∉ [t]) = []
        -- the group was just `t`, which is signalled already
        · refine ⟨g, hg, hgfd, hgready, _, List.mem_append_right _ List.mem_cons_self, ?_⟩
          obtain ⟨u, us, hus⟩ := List.exists_cons_of_ne_nil (hfull g hg)
          have hu := List.filter_eq_nil_iff.mp hgone u (by rw [hus]; exact List.mem_cons_self)
          have hut : u = t := by simpa using hu
          rw [hus, hut]
          exact List.mem_cons_self
        · obtain ⟨k', hk', hk'fd, hk'ready, e, he, hek'⟩ := hresults result hresult
            (g.1, g.2.filter (· ∉ [t])) (mem_without.mpr ⟨g, hg, rfl, hgone⟩)
            (by rw [hdel1.key]; exact hgfd) (by rw [hdel1.key]; exact hgready)
          obtain ⟨k0, hk0, rfl, -⟩ := mem_without.mp hk'
          rw [hdel1.key] at hk'fd hk'ready
          exact ⟨k0, hk0, hk'fd, hk'ready, e, List.mem_append_left _ he,
            (List.mem_filter.mp hek').1⟩

end Io

end MitScheme.Runtime.IoRegistration
