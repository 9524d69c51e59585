import MitScheme.Lib.DoublyLinked
import MitScheme.Runtime.IoRegistration

/-! # The lists of the registrations

The select registry as a set of pairs, the dentries and their tentries as doubly linked
lists, and what taking a dentry or a tentry off does to them. -/

namespace MitScheme.Runtime.IoRegistration
open Lib.DoublyLinked
open Lib.LinkedQueue (Links)
open ThreadKernel (ThreadId)
open Prod (fst snd)

/-! ## The registry as a set of pairs -/

def Mode.Polled (mode : Mode) : Prop := mode = .read ∨ mode = .write

def requested (fd : Descriptor) : Registry → PollEvents
  | [] => ⟨false, false⟩
  | e :: r => if e.fd = fd then e.events else requested fd r

def Asks (r : Registry) (fd : Descriptor) : Mode → Prop
  | .read => (requested fd r).input = true
  | .write => (requested fd r).output = true
  | _ => False

/-- One entry for each descriptor, and none that asks for nothing. -/
structure RegistryOk (r : Registry) : Prop where
  nodup : (r.map PollFd.fd).Nodup
  asked : ∀ e ∈ r, e.events ≠ ⟨false, false⟩

theorem requested_of_notMem {fd} :
    ∀ {r : Registry}, fd ∉ r.map PollFd.fd → requested fd r = ⟨false, false⟩
  | [], _ => rfl
  | e :: r, h => by
    rw [List.map_cons, List.mem_cons, not_or] at h
    rw [requested, if_neg fun he => h.1 he.symm, requested_of_notMem h.2]

theorem requested_add (fd fd' : Descriptor) (mode : Nat) : ∀ r : Registry,
    requested fd' (osAddToSelectRegistry fd mode r) =
      if fd' = fd then ⟨(requested fd r).input || (decodeMode mode).input,
        (requested fd r).output || (decodeMode mode).output⟩ else requested fd' r
  | [] => by
    by_cases h : fd' = fd
    · subst h
      simp [osAddToSelectRegistry, requested]
    · simp [osAddToSelectRegistry, requested, h, Ne.symm h]
  | e :: r => by
    have ih := requested_add fd fd' mode r
    by_cases he : e.fd = fd
    · by_cases h : fd' = fd
      · subst h
        simp [osAddToSelectRegistry, requested, he]
      · simp [osAddToSelectRegistry, requested, he, h, Ne.symm h]
    · by_cases h : fd' = fd
      · subst h
        simpa [osAddToSelectRegistry, requested, he] using ih
      · simp [osAddToSelectRegistry, requested, he, h, ih]

theorem requested_remove (fd fd' : Descriptor) (mode : Nat) :
    ∀ {r : Registry}, RegistryOk r →
    requested fd' (osRemoveFromSelectRegistry fd mode r) =
      if fd' = fd then ⟨(requested fd r).input && !(decodeMode mode).input,
        (requested fd r).output && !(decodeMode mode).output⟩ else requested fd' r
  | [], _ => by simp [osRemoveFromSelectRegistry, requested]
  | e :: r, hr => by
    obtain ⟨hnotin, hnodup⟩ := List.nodup_cons.mp hr.nodup
    have ih := requested_remove fd fd' mode
      (r := r) ⟨hnodup, fun e' he' => hr.asked e' (List.mem_cons_of_mem _ he')⟩
    by_cases he : e.fd = fd
    · subst he
      rw [osRemoveFromSelectRegistry, if_pos rfl]
      dsimp only
      split
      case isTrue hnone =>
        by_cases h : fd' = e.fd
        · rw [if_pos h, h, requested_of_notMem hnotin, requested, if_pos rfl, hnone]
        · rw [if_neg h, requested, if_neg fun heq => h heq.symm]
      case isFalse =>
        by_cases h : fd' = e.fd
        · subst h
          simp [requested]
        · simp [requested, h, Ne.symm h]
    · rw [osRemoveFromSelectRegistry, if_neg he]
      by_cases h : fd' = fd
      · subst h
        simpa [requested, he] using ih
      · simp only [requested, ih, if_neg h]

theorem map_fd_add (fd : Descriptor) (mode : Nat) : ∀ r : Registry,
    (osAddToSelectRegistry fd mode r).map PollFd.fd =
      if fd ∈ r.map PollFd.fd then r.map PollFd.fd else r.map PollFd.fd ++ [fd]
  | [] => rfl
  | e :: r => by
    have ih := map_fd_add fd mode r
    by_cases he : e.fd = fd
    · simp [osAddToSelectRegistry, he]
    · rw [osAddToSelectRegistry, if_neg he, List.map_cons, ih]
      have hiff : fd ∈ (e :: r).map PollFd.fd ↔ fd ∈ r.map PollFd.fd := by
        simp [Ne.symm he]
      by_cases h : fd ∈ r.map PollFd.fd
      · rw [if_pos h, if_pos (hiff.mpr h)]
        rfl
      · rw [if_neg h, if_neg fun hm => h (hiff.mp hm)]
        rfl

theorem RegistryOk.add {r} (hr : RegistryOk r) (fd) {mode}
    (hmode : decodeMode mode ≠ ⟨false, false⟩) : RegistryOk (osAddToSelectRegistry fd mode r) := by
  refine ⟨?_, ?_⟩
  · rw [map_fd_add]
    split
    · exact hr.nodup
    case isFalse h =>
      refine List.nodup_append.mpr ⟨hr.nodup, List.nodup_singleton fd, ?_⟩
      intro a ha b hb
      rw [List.mem_singleton.mp hb]
      exact fun hab => h (hab ▸ ha)
  · have hasked := hr.asked
    clear hr
    induction r with
    | nil =>
      intro e he
      rw [List.mem_singleton.mp he]
      exact hmode
    | cons e r ih =>
      rw [osAddToSelectRegistry]
      have hrest : ∀ e' ∈ r, e'.events ≠ ⟨false, false⟩ :=
        fun e' he' => hasked e' (List.mem_cons_of_mem _ he')
      split
      · intro e' he'
        rcases List.mem_cons.mp he' with rfl | he'
        · intro hnone
          obtain ⟨hin, hout⟩ := PollEvents.mk.inj hnone
          rw [Bool.or_eq_false_iff] at hin hout
          refine hasked e List.mem_cons_self ?_
          rw [show e.events = ⟨e.events.input, e.events.output⟩ from rfl, hin.1, hout.1]
        · exact hrest e' he'
      · intro e' he'
        rcases List.mem_cons.mp he' with rfl | he'
        · exact hasked e' List.mem_cons_self
        · exact ih hrest e' he'

theorem remove_sublist (fd : Descriptor) (mode : Nat) : ∀ r : Registry,
    ((osRemoveFromSelectRegistry fd mode r).map PollFd.fd).Sublist (r.map PollFd.fd)
  | [] => List.Sublist.refl _
  | e :: r => by
    rw [osRemoveFromSelectRegistry]
    split
    · dsimp only
      split
      · exact List.sublist_cons_self _ _
      · exact List.Sublist.refl _
    · exact (remove_sublist fd mode r).cons_cons _

theorem RegistryOk.remove {r} (hr : RegistryOk r) (fd mode) :
    RegistryOk (osRemoveFromSelectRegistry fd mode r) := by
  refine ⟨hr.nodup.sublist (remove_sublist fd mode r), ?_⟩
  have hasked := hr.asked
  clear hr
  induction r with
  | nil => exact fun _ he => absurd he List.not_mem_nil
  | cons e r ih =>
    rw [osRemoveFromSelectRegistry]
    have hrest : ∀ e' ∈ r, e'.events ≠ ⟨false, false⟩ :=
      fun e' he' => hasked e' (List.mem_cons_of_mem _ he')
    split
    · dsimp only
      split
      · exact hrest
      case isFalse hsome =>
        intro e' he'
        rcases List.mem_cons.mp he' with rfl | he'
        · exact hsome
        · exact hrest e' he'
    · intro e' he'
      rcases List.mem_cons.mp he' with rfl | he'
      · exact hasked e' List.mem_cons_self
      · exact ih hrest e' he'

@[simp] theorem decodeMode_one : decodeMode 1 = ⟨true, false⟩ := by decide

@[simp] theorem decodeMode_two : decodeMode 2 = ⟨false, true⟩ := by decide

theorem Mode.Polled.encode {mode} (h : mode.Polled) :
    ∃ n, encodeSelectRegistryMode mode = some n ∧ decodeMode n ≠ ⟨false, false⟩ := by
  rcases h with rfl | rfl
  · exact ⟨1, rfl, by decide⟩
  · exact ⟨2, rfl, by decide⟩

theorem asks_add {mode} (h : mode.Polled) {n} (hn : encodeSelectRegistryMode mode = some n)
    (r fd fd' mode') :
    Asks (osAddToSelectRegistry fd n r) fd' mode' ↔
      Asks r fd' mode' ∨ (fd', mode') = (fd, mode) := by
  have hreq := requested_add fd fd' n r
  rcases h with rfl | rfl <;> cases hn <;> cases mode' <;> simp only [Asks, hreq] <;>
    by_cases hfd : fd' = fd <;> simp [hfd]

theorem asks_remove {mode} (h : mode.Polled) {n} (hn : encodeSelectRegistryMode mode = some n) {r}
    (hr : RegistryOk r) (fd fd' mode') :
    Asks (osRemoveFromSelectRegistry fd n r) fd' mode' ↔
      Asks r fd' mode' ∧ (fd', mode') ≠ (fd, mode) := by
  have hreq := requested_remove fd fd' n hr
  rcases h with rfl | rfl <;> cases hn <;> cases mode' <;> simp only [Asks, hreq] <;>
    by_cases hfd : fd' = fd <;> simp [hfd]

/-! ## The shape of the lists -/

abbrev Group := DentryId × List TentryId

namespace Io

variable {s s' : Io} {g : Group} {gs : List Group} {ts : List TentryId}

def key (s : Io) (d : DentryId) : Descriptor × Mode :=
  ((s.dentries d).descriptor, (s.dentries d).mode)

def dprev (s : Io) (d : DentryId) : Option DentryId := (s.dentries d).prev
def dnext (s : Io) (d : DentryId) : Option DentryId := (s.dentries d).next
def tprev (s : Io) (t : TentryId) : Option TentryId := (s.tentries t).prev
def tnext (s : Io) (t : TentryId) : Option TentryId := (s.tentries t).next

structure GroupOk (s : Io) (g : Group) : Prop where
  linked : DLinked s.tprev s.tnext g.2
  first : (s.dentries g.1).firstTentry = g.2.head?
  last : (s.dentries g.1).lastTentry = g.2.getLast?
  dentry : ∀ t ∈ g.2, (s.tentries t).dentry = some g.1
  thread : ∀ t ∈ g.2, (s.tentries t).thread ≠ none
  polled : (s.dentries g.1).mode.Polled

structure Lists (s : Io) (gs : List Group) : Prop where
  linked : DLinked s.dprev s.dnext (gs.map fst)
  first : s.registrations = (gs.map fst).head?
  group : ∀ g ∈ gs, s.GroupOk g
  keys : (gs.map fun g => s.key g.1).Nodup
  dentryCount : ∀ g ∈ gs, g.1 < s.dentryCount
  tentryCount : ∀ g ∈ gs, ∀ t ∈ g.2, t < s.tentryCount

structure Shape (s : Io) (gs : List Group) : Prop extends Lists s gs where
  registryOk : RegistryOk s.registry
  registry : ∀ fd mode, Asks s.registry fd mode ↔ (fd, mode) ∈ gs.map fun g => s.key g.1

theorem GroupOk.congr (h : s.GroupOk g)
    (hfirst : (s'.dentries g.1).firstTentry = (s.dentries g.1).firstTentry)
    (hlast : (s'.dentries g.1).lastTentry = (s.dentries g.1).lastTentry)
    (hmode : (s'.dentries g.1).mode = (s.dentries g.1).mode)
    (ht : ∀ t ∈ g.2, s'.tentries t = s.tentries t) : s'.GroupOk g := by
  refine ⟨h.linked.congr ?_ ?_, hfirst.trans h.first, hlast.trans h.last, ?_, ?_, ?_⟩
  · intro t hm
    rw [tprev, ht t hm, tprev]
  · intro t hm
    rw [tnext, ht t hm, tnext]
  · intro t hm
    rw [ht t hm]
    exact h.dentry t hm
  · intro t hm
    rw [ht t hm]
    exact h.thread t hm
  · rw [hmode]
    exact h.polled

/-! ### Taking a dentry off -/

variable {pre post : List Group} (d : DentryId)

@[simp] theorem splice_tentries : (s.splice d).tentries = s.tentries := by
  unfold splice
  dsimp only
  split <;> split <;> rfl

@[simp] theorem splice_counts :
    (s.splice d).dentryCount = s.dentryCount ∧ (s.splice d).tentryCount = s.tentryCount := by
  unfold splice
  dsimp only
  split <;> split <;> exact ⟨rfl, rfl⟩

@[simp] theorem splice_registry : (s.splice d).registry = s.registry := by
  unfold splice
  dsimp only
  split <;> split <;> rfl

@[simp] theorem splice_signals : (s.splice d).signals = s.signals := by
  unfold splice
  dsimp only
  split <;> split <;> rfl

theorem splice_dentries (d e) :
    (s.splice d).dentries e = { s.dentries e with
      prev := if s.dnext d = some e then s.dprev d else s.dprev e
      next := if s.dprev d = some e then s.dnext d else s.dnext e } := by
  unfold splice dnext dprev
  dsimp only
  cases hp : (s.dentries d).prev with
  | none =>
    cases hn : (s.dentries d).next with
    | none => simp
    | some n =>
      by_cases hen : e = n
      · subst hen
        simp [setDentry]
      · simp [setDentry, hen, Ne.symm hen]
  | some p =>
    cases hn : (s.dentries d).next with
    | none =>
      by_cases hep : e = p
      · subst hep
        simp [setDentry]
      · simp [setDentry, hep, Ne.symm hep]
    | some n =>
      by_cases hen : e = n
      · subst hen
        by_cases hep : e = p
        · subst hep
          simp [setDentry]
        · simp [setDentry, hep, Ne.symm hep]
      · by_cases hep : e = p
        · subst hep
          simp [setDentry, hen, Ne.symm hen]
        · simp [setDentry, hep, Ne.symm hep, hen, Ne.symm hen]

theorem splice_registrations :
    (s.splice d).registrations = if s.dprev d = none then s.dnext d else s.registrations := by
  unfold splice dprev dnext
  dsimp only
  cases hp : (s.dentries d).prev with
  | none => cases hn : (s.dentries d).next <;> rfl
  | some p => cases hn : (s.dentries d).next <;> rfl

theorem splice_key (d e) : (s.splice d).key e = s.key e := by
  rw [key, splice_dentries, key]

structure SameEntries (s s' : Io) : Prop where
  tentries : s'.tentries = s.tentries
  key : ∀ d, s'.key d = s.key d
  dentryCount : s'.dentryCount = s.dentryCount
  tentryCount : s'.tentryCount = s.tentryCount

theorem SameEntries.trans {s''} (h : SameEntries s s') (h' : SameEntries s' s'') :
    SameEntries s s'' :=
  ⟨h'.tentries.trans h.tentries, fun d => (h'.key d).trans (h.key d),
    h'.dentryCount.trans h.dentryCount, h'.tentryCount.trans h.tentryCount⟩

theorem mem_of_mem_append {α : Type} {pre post : List α} {g k : α} (hk : k ∈ pre ++ post) :
    k ∈ pre ++ g :: post := by
  rcases List.mem_append.mp hk with hk | hk
  · exact List.mem_append_left _ hk
  · exact List.mem_append_right _ (List.mem_cons_of_mem _ hk)

theorem Lists.splice (h : s.Lists (pre ++ g :: post)) : (s.splice g.1).Lists (pre ++ post) := by
  have hmap : (pre ++ g :: post).map fst = pre.map fst ++ g.1 :: post.map fst := by
    simp
  have hlinked := h.linked
  rw [hmap] at hlinked
  have hprev : s.dprev g.1 = (pre.map fst).getLast? := hlinked.prev_eq
  have hnext : s.dnext g.1 = (post.map fst).head? := hlinked.next_eq
  refine ⟨?_, ?_, ?_, ?_, ?_, ?_⟩
  · rw [List.map_append]
    refine hlinked.delete ?_ ?_ ?_ ?_
    · intro p hp
      rw [dnext, splice_dentries]
      dsimp only
      rw [hprev, hp, if_pos rfl, hnext]
    · intro n hn
      rw [dprev, splice_dentries]
      dsimp only
      rw [hnext, hn, if_pos rfl, hprev]
    · intro j _ hj
      rw [dnext, splice_dentries]
      dsimp only
      rw [if_neg fun hpj => hj (hprev.symm.trans hpj)]
    · intro j _ hj
      rw [dprev, splice_dentries]
      dsimp only
      rw [if_neg fun hpj => hj (hnext.symm.trans hpj)]
  · rw [splice_registrations, hprev, hnext, h.first, hmap, List.map_append]
    cases pre with
    | nil => rfl
    | cons k pre => simp
  · intro k hk
    refine (h.group k (mem_of_mem_append hk)).congr ?_ ?_ ?_ ?_
    · rw [splice_dentries]
    · rw [splice_dentries]
    · rw [splice_dentries]
    · intro t _
      rw [splice_tentries]
  · simp only [splice_key]
    refine h.keys.sublist ?_
    exact (List.Sublist.append_left (List.sublist_cons_self g post) pre).map _
  · intro k hk
    rw [(splice_counts g.1).1]
    exact h.dentryCount k (mem_of_mem_append hk)
  · intro k hk t ht
    rw [(splice_counts g.1).2]
    exact h.tentryCount k (mem_of_mem_append hk) t ht

theorem Shape.removeDentry (h : s.Shape (pre ++ g :: post)) :
    ∃ s', s.removeDentry g.1 = .done s' ∧ s'.Shape (pre ++ post) ∧ SameEntries s s' ∧
      s'.signals = s.signals ∧ s'.dnext g.1 = s.dnext g.1 := by
  have hg := h.group g (by simp)
  obtain ⟨n, hn, -⟩ := hg.polled.encode
  have hkeys := h.keys
  rw [List.map_append, List.map_cons, List.nodup_middle] at hkeys
  obtain ⟨hnotin, -⟩ := List.nodup_cons.mp hkeys
  have hlists : ∀ r, Lists { s with registry := r } (pre ++ g :: post) := fun r =>
    ⟨h.linked, h.first, fun k hk => (h.group k hk).congr rfl rfl rfl fun _ _ => rfl, h.keys,
      h.dentryCount, h.tentryCount⟩
  refine ⟨_, by rw [Io.removeDentry, hn], ⟨(hlists _).splice, ?_, ?_⟩, ?_, ?_, ?_⟩
  · rw [splice_registry]
    exact h.registryOk.remove _ _
  · intro fd mode
    simp only [splice_registry, splice_key]
    rw [asks_remove hg.polled hn h.registryOk, h.registry, List.map_append, List.map_append,
      List.map_cons, List.mem_append, List.mem_append, List.mem_cons]
    show _ ∧ (fd, mode) ≠ s.key g.1 ↔ _
    constructor
    · rintro ⟨hm | hm | hm, hne⟩
      · exact .inl hm
      · exact absurd hm hne
      · exact .inr hm
    · intro hm
      refine ⟨hm.imp_right .inr, ?_⟩
      intro heq
      rw [heq] at hm
      exact hnotin (by rw [← List.map_append, List.map_append]; exact List.mem_append.mpr hm)
  · exact ⟨splice_tentries _, fun e => splice_key _ e, (splice_counts _).1, (splice_counts _).2⟩
  · exact splice_signals _
  · rw [dnext, splice_dentries]
    show (if s.dprev g.1 = some g.1 then s.dnext g.1 else s.dnext g.1) = _
    rw [ite_self]

/-! ### Deleting a tentry -/

/-- The groups without some tentries, and without the groups this empties. -/
def without (ts : List TentryId) (gs : List Group) : List Group :=
  (gs.map fun g => (g.1, g.2.filter (· ∉ ts))).filter fun g => g.2 ≠ []

theorem without_without (ts us gs) : without us (without ts gs) = without (ts ++ us) gs := by
  induction gs with
  | nil => rfl
  | cons g gs ih =>
    have hfilter : (g.2.filter (· ∉ ts)).filter (· ∉ us) = g.2.filter (· ∉ ts ++ us) := by
      rw [List.filter_filter]
      refine List.filter_congr fun t _ => ?_
      by_cases ht : t ∈ ts <;> by_cases hu : t ∈ us <;> simp [ht, hu]
    unfold without at ih ⊢
    rw [List.map_cons, List.map_cons, List.filter_cons, List.filter_cons]
    by_cases hnil : g.2.filter (· ∉ ts) = []
    · have hnil' : g.2.filter (· ∉ ts ++ us) = [] := by rw [← hfilter, hnil]; rfl
      simp only [hnil, hnil', ne_eq, not_true_eq_false, decide_false, Bool.false_eq_true, if_false]
      exact ih
    · simp only [ne_eq, hnil, not_false_eq_true, decide_true, if_true, List.map_cons,
        List.filter_cons, hfilter]
      rw [ih]

theorem without_eq_self (hfull : ∀ g ∈ gs, g.2 ≠ [])
    (hts : ∀ g ∈ gs, ∀ t ∈ g.2, t ∉ ts) : without ts gs = gs := by
  induction gs with
  | nil => rfl
  | cons g gs ih =>
    have hsame : g.2.filter (· ∉ ts) = g.2 :=
      List.filter_eq_self.mpr fun t ht => decide_eq_true (hts g List.mem_cons_self t ht)
    have htail := ih (fun k hk => hfull k (List.mem_cons_of_mem _ hk))
      fun k hk => hts k (List.mem_cons_of_mem _ hk)
    unfold without at htail ⊢
    rw [List.map_cons, List.filter_cons, hsame, htail,
      if_pos (decide_eq_true (hfull g List.mem_cons_self))]

theorem without_append (ts gs hs) : without ts (gs ++ hs) = without ts gs ++ without ts hs := by
  unfold without
  rw [List.map_append, List.filter_append]

theorem without_full : ∀ g ∈ without ts gs, g.2 ≠ [] :=
  fun _ hg => of_decide_eq_true (List.mem_filter.mp hg).2

theorem flatMap_without (ts gs) :
    (without ts gs).flatMap snd = (gs.flatMap snd).filter (· ∉ ts) := by
  induction gs with
  | nil => rfl
  | cons g gs ih =>
    unfold without at ih ⊢
    rw [List.map_cons, List.filter_cons, List.flatMap_cons, List.filter_append, ← ih]
    split
    · rw [List.flatMap_cons]
    case isFalse hnil =>
      have hempty : g.2.filter (· ∉ ts) = [] := by simpa using hnil
      rw [hempty, List.nil_append]

theorem spliceTentry_tentries (prev next u) :
    (s.spliceTentry d prev next).tentries u = { s.tentries u with
      prev := if next = some u then prev else s.tprev u
      next := if prev = some u then next else s.tnext u } := by
  unfold spliceTentry tprev tnext
  dsimp only
  cases prev with
  | none =>
    cases next with
    | none => simp [setDentry]
    | some n =>
      by_cases hn : u = n
      · subst hn
        simp [setDentry, setTentry]
      · simp [setDentry, setTentry, hn, Ne.symm hn]
  | some p =>
    cases next with
    | none =>
      by_cases hp : u = p
      · subst hp
        simp [setDentry, setTentry]
      · simp [setDentry, setTentry, hp, Ne.symm hp]
    | some n =>
      by_cases hn : u = n
      · subst hn
        by_cases hp : u = p
        · subst hp
          simp [setTentry]
        · simp [setTentry, hp, Ne.symm hp]
      · by_cases hp : u = p
        · subst hp
          simp [setTentry, hn, Ne.symm hn]
        · simp [setTentry, hp, Ne.symm hp, hn, Ne.symm hn]

theorem spliceTentry_dentry (prev next) :
    (s.spliceTentry d prev next).dentries d = { s.dentries d with
      firstTentry := if prev = none then next else (s.dentries d).firstTentry
      lastTentry := if next = none then prev else (s.dentries d).lastTentry } := by
  unfold spliceTentry
  cases prev <;> cases next <;> simp [setDentry, setTentry]

theorem spliceTentry_of_ne {d e} (he : e ≠ d) (prev next) :
    (s.spliceTentry d prev next).dentries e = s.dentries e := by
  unfold spliceTentry
  cases prev <;> cases next <;> simp [setDentry, setTentry, he]

theorem spliceTentry_rest (prev next) :
    (s.spliceTentry d prev next).registrations = s.registrations ∧
      (s.spliceTentry d prev next).registry = s.registry ∧
      (s.spliceTentry d prev next).dentryCount = s.dentryCount ∧
      (s.spliceTentry d prev next).tentryCount = s.tentryCount ∧
      (s.spliceTentry d prev next).signals = s.signals := by
  unfold spliceTentry
  cases prev <;> cases next <;> exact ⟨rfl, rfl, rfl, rfl, rfl⟩

structure Deletes (s s' : Io) (ts : List TentryId) : Prop where
  key : ∀ d, s'.key d = s.key d
  dentryCount : s'.dentryCount = s.dentryCount
  tentryCount : s'.tentryCount = s.tentryCount
  signals : s'.signals = s.signals
  kept : ∀ u ∉ ts, (s'.tentries u).dentry = (s.tentries u).dentry ∧
    (s'.tentries u).thread = (s.tentries u).thread ∧ (s'.tentries u).event = (s.tentries u).event
  gone : ∀ u ∈ ts, (s'.tentries u).dentry = none

theorem Deletes.refl (s) : Deletes s s [] :=
  ⟨fun _ => rfl, rfl, rfl, rfl, fun _ _ => ⟨rfl, rfl, rfl⟩,
    fun _ hu => absurd hu List.not_mem_nil⟩

theorem Deletes.trans {s'' ts us} (h : Deletes s s' ts) (h' : Deletes s' s'' us) :
    Deletes s s'' (ts ++ us) := by
  refine ⟨fun d => (h'.key d).trans (h.key d), h'.dentryCount.trans h.dentryCount,
    h'.tentryCount.trans h.tentryCount, h'.signals.trans h.signals, ?_, ?_⟩
  · intro u hu
    rw [List.mem_append, not_or] at hu
    obtain ⟨h1, h2, h3⟩ := h.kept u hu.1
    obtain ⟨h1', h2', h3'⟩ := h'.kept u hu.2
    exact ⟨h1'.trans h1, h2'.trans h2, h3'.trans h3⟩
  · intro u hu
    by_cases hus : u ∈ us
    · exact h'.gone u hus
    · rw [(h'.kept u hus).1]
      exact h.gone u ((List.mem_append.mp hu).resolve_right hus)

theorem SameEntries.deletes {s''} (h' : SameEntries s' s'') (hsignals : s''.signals = s'.signals)
    (h : Deletes s s' ts) : Deletes s s'' ts := by
  refine ⟨fun d => (h'.key d).trans (h.key d), h'.dentryCount.trans h.dentryCount,
    h'.tentryCount.trans h.tentryCount, hsignals.trans h.signals, ?_, ?_⟩
  · rw [h'.tentries]
    exact h.kept
  · rw [h'.tentries]
    exact h.gone

theorem Lists.disjoint (h : s.Lists gs) {g k} (hg : g ∈ gs) (hk : k ∈ gs) {t} (ht : t ∈ g.2)
    (ht' : t ∈ k.2) : g.1 = k.1 := by
  have h1 := (h.group g hg).dentry t ht
  rw [(h.group k hk).dentry t ht'] at h1
  exact (Option.some.inj h1).symm

theorem Lists.spliceTentry {d : DentryId} {a b : List TentryId} {t : TentryId}
    (h : s.Lists (pre ++ (d, a ++ t :: b) :: post)) :
    ((s.setTentry t ⟨none, none, none, none, none⟩).spliceTentry d (s.tentries t).prev
      (s.tentries t).next).Lists (pre ++ (d, a ++ b) :: post) := by
  generalize hs1 : s.setTentry t ⟨none, none, none, none, none⟩ = s1
  have hg := h.group (d, a ++ t :: b) (by simp)
  have hprev : (s.tentries t).prev = a.getLast? := hg.linked.prev_eq
  have hnext : (s.tentries t).next = b.head? := hg.linked.next_eq
  rw [hprev, hnext]
  have hfst : (pre ++ (d, a ++ b) :: post).map fst =
      (pre ++ (d, a ++ t :: b) :: post).map fst := by simp
  have hother : ∀ k ∈ pre ++ post, k.1 ≠ d := by
    intro k hk hkd
    have hnodup := h.linked.nodup
    rw [List.map_append, List.map_cons, List.nodup_middle, ← List.map_append] at hnodup
    refine (List.nodup_cons.mp hnodup).1 ?_
    show d ∈ (pre ++ post).map fst
    rw [← hkd]
    exact List.mem_map_of_mem hk
  have hdentries1 : s1.dentries = s.dentries := by rw [← hs1]; rfl
  have htentries1 : ∀ u, u ≠ t → s1.tentries u = s.tentries u := by
    intro u hu
    rw [← hs1]
    simp [setTentry, hu]
  have hkey : ∀ e, (s1.spliceTentry d a.getLast? b.head?).key e = s.key e := by
    intro e
    by_cases he : e = d
    · rw [Io.key, he, spliceTentry_dentry, hdentries1, Io.key]
    · rw [Io.key, spliceTentry_of_ne he, hdentries1, Io.key]
  have hlinks : ∀ e, (s1.spliceTentry d a.getLast? b.head?).dprev e = s.dprev e ∧
      (s1.spliceTentry d a.getLast? b.head?).dnext e = s.dnext e := by
    intro e
    by_cases he : e = d
    · rw [dprev, dnext, he, spliceTentry_dentry, hdentries1]
      exact ⟨rfl, rfl⟩
    · rw [dprev, dnext, spliceTentry_of_ne he, hdentries1]
      exact ⟨rfl, rfl⟩
  obtain ⟨hregs, -, hdc, htc, -⟩ := spliceTentry_rest (s := s1) d a.getLast? b.head?
  have hnodup := hg.linked.nodup
  rw [List.nodup_middle] at hnodup
  obtain ⟨htnot, hnodup⟩ := List.nodup_cons.mp hnodup
  refine ⟨?_, ?_, ?_, ?_, ?_, ?_⟩
  · rw [hfst]
    exact h.linked.congr (fun e _ => (hlinks e).1) fun e _ => (hlinks e).2
  · rw [hregs, hfst, ← h.first, ← hs1]
    rfl
  · intro k hk
    have hcases : k = (d, a ++ b) ∨ k ∈ pre ++ post := by
      rcases List.mem_append.mp hk with hk | hk
      · exact .inr (List.mem_append_left _ hk)
      · rcases List.mem_cons.mp hk with hk | hk
        · exact .inl hk
        · exact .inr (List.mem_append_right _ hk)
    rcases hcases with rfl | hk
    · have hne : ∀ u ∈ a ++ b, u ≠ t := fun u hu hut => htnot (hut ▸ hu)
      refine ⟨hg.linked.delete ?_ ?_ ?_ ?_, ?_, ?_, ?_, ?_, ?_⟩
      · intro p hp
        rw [tnext, spliceTentry_tentries, if_pos hp]
      · intro n hn
        rw [tprev, spliceTentry_tentries, if_pos hn]
      · intro u hu hne'
        rw [tnext, spliceTentry_tentries, if_neg hne', tnext, htentries1 u (hne u hu), tnext]
      · intro u hu hne'
        rw [tprev, spliceTentry_tentries, if_neg hne', tprev, htentries1 u (hne u hu), tprev]
      · rw [spliceTentry_dentry, hdentries1]
        show (if a.getLast? = none then b.head? else (s.dentries d).firstTentry) = _
        have hfirst := hg.first
        rw [hfirst]
        cases a with
        | nil => rfl
        | cons u a => simp
      · rw [spliceTentry_dentry, hdentries1]
        show (if b.head? = none then a.getLast? else (s.dentries d).lastTentry) = _
        have hlast := hg.last
        rw [hlast]
        cases b with
        | nil => simp
        | cons u b => simp
      · intro u hu
        rw [spliceTentry_tentries, htentries1 u (hne u hu)]
        exact hg.dentry u (mem_of_mem_append hu)
      · intro u hu
        rw [spliceTentry_tentries, htentries1 u (hne u hu)]
        exact hg.thread u (mem_of_mem_append hu)
      · rw [spliceTentry_dentry, hdentries1]
        exact hg.polled
    · have hkne := hother k hk
      have hkm : k ∈ pre ++ (d, a ++ t :: b) :: post := mem_of_mem_append hk
      have hout : ∀ u ∈ k.2, u ∉ a ++ t :: b := fun u hu hu' =>
        hkne (h.disjoint hkm (show (d, a ++ t :: b) ∈ _ by simp) hu hu')
      refine (h.group k hkm).congr ?_ ?_ ?_ ?_
      · rw [spliceTentry_of_ne hkne, hdentries1]
      · rw [spliceTentry_of_ne hkne, hdentries1]
      · rw [spliceTentry_of_ne hkne, hdentries1]
      · intro u hu
        have hu' := hout u hu
        have hut : u ≠ t := fun hut => hu' (by rw [hut]; simp)
        rw [spliceTentry_tentries, tprev, tnext, if_neg, if_neg, htentries1 u hut]
        · intro hp
          exact hu' (List.mem_append_left _ (List.mem_of_getLast? hp))
        · intro hn
          exact hu' (List.mem_append_right _ (List.mem_cons_of_mem _ (List.mem_of_mem_head? hn)))
  · simp only [hkey]
    have hkeys := h.keys
    rw [List.map_append, List.map_cons] at hkeys ⊢
    exact hkeys
  · intro k hk
    rw [hdc, ← hs1]
    have hk' : k.1 ∈ (pre ++ (d, a ++ t :: b) :: post).map fst :=
      hfst ▸ List.mem_map_of_mem hk
    obtain ⟨k', hk', hkk⟩ := List.mem_map.mp hk'
    rw [← hkk]
    exact h.dentryCount k' hk'
  · intro k hk u hu
    rw [htc, ← hs1]
    rcases List.mem_append.mp hk with hk | hk
    · exact h.tentryCount k (List.mem_append_left _ hk) u hu
    · rcases List.mem_cons.mp hk with rfl | hk
      · exact h.tentryCount (d, a ++ t :: b) (by simp) u (mem_of_mem_append hu)
      · exact h.tentryCount k (by simp [hk]) u hu

theorem exists_group (hg : g ∈ gs) {t} (ht : t ∈ g.2) :
    ∃ pre a b post, gs = pre ++ (g.1, a ++ t :: b) :: post := by
  obtain ⟨pre, post, rfl⟩ := List.append_of_mem hg
  obtain ⟨a, b, hab⟩ := List.append_of_mem ht
  exact ⟨pre, a, b, post, by rw [← hab]⟩

theorem Shape.deleteTentry (h : s.Shape gs) (hfull : ∀ g ∈ gs, g.2 ≠ []) {t}
    (ht : t ∈ gs.flatMap snd) :
    ∃ s', s.deleteTentry t = .done s' ∧ s'.Shape (without [t] gs) ∧ Deletes s s' [t] := by
  obtain ⟨g, hg, htg⟩ := List.mem_flatMap.mp ht
  obtain ⟨pre, a, b, post, rfl⟩ := exists_group hg htg
  generalize g.1 = d at *
  have hgroup := h.group (d, a ++ t :: b) (by simp)
  have hprev : (s.tentries t).prev = a.getLast? := hgroup.linked.prev_eq
  have hnext : (s.tentries t).next = b.head? := hgroup.linked.next_eq
  have hd : (s.tentries t).dentry = some d := hgroup.dentry t (by simp)
  have hnodup := hgroup.linked.nodup
  rw [List.nodup_middle] at hnodup
  have htnot := (List.nodup_cons.mp hnodup).1
  have hlists := h.toLists.spliceTentry
  obtain ⟨-, hregistry, hdc, htc, hsig⟩ := spliceTentry_rest
    (s := s.setTentry t ⟨none, none, none, none, none⟩) d (s.tentries t).prev (s.tentries t).next
  have htentries := spliceTentry_tentries
    (s := s.setTentry t ⟨none, none, none, none, none⟩) d (s.tentries t).prev (s.tentries t).next
  have hkey : ∀ e, ((s.setTentry t ⟨none, none, none, none, none⟩).spliceTentry d
      (s.tentries t).prev (s.tentries t).next).key e = s.key e := by
    intro e
    by_cases he : e = d
    · rw [Io.key, he, spliceTentry_dentry]
      rfl
    · rw [Io.key, spliceTentry_of_ne he]
      rfl
  have hdeletes : Deletes s ((s.setTentry t ⟨none, none, none, none, none⟩).spliceTentry d
      (s.tentries t).prev (s.tentries t).next) [t] := by
    refine ⟨hkey, hdc, htc, hsig, ?_, ?_⟩
    · intro u hu
      have hut : u ≠ t := fun hut => hu (by rw [hut]; simp)
      rw [htentries]
      simp [setTentry, hut]
    · intro u hu
      rw [List.mem_singleton.mp hu, htentries]
      simp [setTentry]
  generalize hs1 : (s.setTentry t ⟨none, none, none, none, none⟩).spliceTentry d
    (s.tentries t).prev (s.tentries t).next = s1 at *
  have hshape : s1.Shape (pre ++ (d, a ++ b) :: post) := by
    refine ⟨hlists, ?_, ?_⟩
    · rw [hregistry]
      exact h.registryOk
    · intro fd mode
      simp only [hkey]
      rw [hregistry]
      have hold := h.registry fd mode
      rw [List.map_append, List.map_cons] at hold ⊢
      exact hold
  -- the other groups do not hold `t`
  have hsame : ∀ l : List Group, (∀ k ∈ l, k ∈ pre ++ post) → without [t] l = l := by
    intro l hl
    refine without_eq_self (fun k hk => hfull k (mem_of_mem_append (hl k hk))) ?_
    intro k hk u hu hut
    rw [List.mem_singleton.mp hut] at hu
    have hkd := h.toLists.disjoint (mem_of_mem_append (hl k hk))
      (show (d, a ++ t :: b) ∈ pre ++ (d, a ++ t :: b) :: post by simp) hu (by simp)
    have hnodup := h.linked.nodup
    rw [List.map_append, List.map_cons, List.nodup_middle, ← List.map_append] at hnodup
    refine (List.nodup_cons.mp hnodup).1 ?_
    show d ∈ _
    rw [← show k.1 = d from hkd]
    exact List.mem_map_of_mem (hl k hk)
  have hfilter : (a ++ t :: b).filter (· ∉ [t]) = a ++ b := by
    have hkeep : ∀ l : List TentryId, (∀ u ∈ l, u ∈ a ++ b) → l.filter (· ∉ [t]) = l := by
      intro l hl
      refine List.filter_eq_self.mpr fun u hu => decide_eq_true ?_
      intro hut
      rw [List.mem_singleton.mp hut] at hu
      exact htnot (hl t hu)
    rw [List.filter_append, List.filter_cons, hkeep a fun u hu => List.mem_append_left _ hu,
      hkeep b fun u hu => List.mem_append_right _ hu]
    simp
  have hgroups : without [t] (pre ++ (d, a ++ t :: b) :: post) =
      pre ++ (if a ++ b = [] then [] else [(d, a ++ b)]) ++ post := by
    rw [without_append, hsame pre fun k hk => List.mem_append_left _ hk,
      show (d, a ++ t :: b) :: post = [(d, a ++ t :: b)] ++ post from rfl, without_append,
      hsame post fun k hk => List.mem_append_right _ hk, List.append_assoc]
    congr 2
    rw [without, List.map_singleton, List.filter_singleton, hfilter]
    by_cases hab : a ++ b = [] <;> simp [hab]
  have hcond : ((s.tentries t).prev = none ∧ (s.tentries t).next = none) ↔ a ++ b = [] := by
    rw [hprev, hnext, List.getLast?_eq_none_iff, List.head?_eq_none_iff, List.append_eq_nil_iff]
  unfold Io.deleteTentry
  rw [hgroups]
  simp only [hd, hs1]
  by_cases hab : a ++ b = []
  · obtain ⟨s2, hs2, hshape2, hsame2, hsig2, -⟩ := hshape.removeDentry
    refine ⟨s2, ?_, ?_, hsame2.deletes hsig2 hdeletes⟩
    · rw [if_pos (hcond.mpr hab)]
      exact hs2
    · rw [if_pos hab, List.append_nil]
      exact hshape2
  · refine ⟨s1, if_neg fun hc => hab (hcond.mp hc), ?_, hdeletes⟩
    rw [if_neg hab, List.append_assoc]
    exact hshape

theorem without_congr {ts us} (h : ∀ t, t ∈ ts ↔ t ∈ us) (gs) : without ts gs = without us gs := by
  unfold without
  congr 2
  funext g
  congr 1
  exact List.filter_congr fun t _ => by simp [h t]

theorem Deletes.congr {ts us} (h : Deletes s s' ts) (htu : ∀ t, t ∈ ts ↔ t ∈ us) :
    Deletes s s' us :=
  ⟨h.key, h.dentryCount, h.tentryCount, h.signals, fun u hu => h.kept u (mt (htu u).mp hu),
    fun u hu => h.gone u ((htu u).mpr hu)⟩

theorem Shape.deleteTentries {ts} : ∀ {s : Io} {gs : List Group}, s.Shape gs →
    (∀ g ∈ gs, g.2 ≠ []) → ts.Nodup → (∀ t ∈ ts, t ∈ gs.flatMap snd) →
    ∃ s', s.deleteTentries ts = .done s' ∧ s'.Shape (without ts gs) ∧ Deletes s s' ts := by
  induction ts with
  | nil =>
    intro s gs h hfull _ _
    refine ⟨s, rfl, ?_, Deletes.refl s⟩
    rw [without_eq_self hfull fun _ _ _ _ => List.not_mem_nil]
    exact h
  | cons t ts ih =>
    intro s gs h hfull hnodup hts
    obtain ⟨htnot, hnodup⟩ := List.nodup_cons.mp hnodup
    obtain ⟨s1, hs1, hshape1, hdel1⟩ := h.deleteTentry hfull (hts t List.mem_cons_self)
    obtain ⟨s2, hs2, hshape2, hdel2⟩ := ih hshape1 without_full hnodup (by
      intro u hu
      rw [flatMap_without, List.mem_filter]
      refine ⟨hts u (List.mem_cons_of_mem _ hu), decide_eq_true ?_⟩
      intro hut
      rw [List.mem_singleton.mp hut] at hu
      exact htnot hu)
    refine ⟨s2, ?_, ?_, hdel1.trans hdel2⟩
    · rw [Io.deleteTentries, hs1]
      exact hs2
    · rw [without_without] at hshape2
      exact hshape2

/-! ### Loops over the lists -/

theorem length_le_of_lt {l : List Nat} {n} (hnodup : l.Nodup) (hlt : ∀ i ∈ l, i < n) :
    l.length ≤ n := by
  have hsub : l.toFinset ⊆ Finset.range n := fun i hi =>
    Finset.mem_range.mpr (hlt i (List.mem_toFinset.mp hi))
  calc l.length = l.toFinset.card := (List.toFinset_card_of_nodup hnodup).symm
    _ ≤ (Finset.range n).card := Finset.card_le_card hsub
    _ = n := Finset.card_range n

theorem Lists.length_le (h : s.Lists gs) : gs.length ≤ s.dentryCount := by
  have hle := length_le_of_lt (n := s.dentryCount) h.linked.nodup (by
    intro d hd
    obtain ⟨g, hg, rfl⟩ := List.mem_map.mp hd
    exact h.dentryCount g hg)
  rwa [List.length_map] at hle

theorem Lists.tentries_length_le (h : s.Lists gs) (hg : g ∈ gs) : g.2.length ≤ s.tentryCount :=
  length_le_of_lt (h.group g hg).linked.nodup (h.tentryCount g hg)

theorem findDentry_spec (p : Dentry → Bool) : ∀ {gs : List Group} {fuel : Nat},
    Links s.dnext (gs.map fst) → gs.length ≤ fuel →
    s.findDentry p fuel (gs.map fst).head? =
      .ok ((gs.find? fun g => p (s.dentries g.1)).map fst)
  | [], fuel, _, _ => by cases fuel <;> rfl
  | g :: gs, 0, _, hfuel => absurd hfuel (Nat.not_succ_le_zero _)
  | g :: gs, fuel + 1, h, hfuel => by
    show (if p (s.dentries g.1) then _ else s.findDentry p fuel (s.dnext g.1)) = _
    rw [h.1, List.find?_cons]
    cases hp : p (s.dentries g.1) with
    | true => rfl
    | false => exact findDentry_spec p h.2 (Nat.le_of_succ_le_succ hfuel)

theorem Lists.search (h : s.Lists gs) (p) :
    s.search p = .ok ((gs.find? fun g => p (s.dentries g.1)).map fst) := by
  rw [Io.search, h.first]
  exact findDentry_spec p h.linked.next h.length_le

theorem threadTentries_spec (thread : ThreadId) : ∀ {ts : List TentryId} {fuel : Nat}
    (acc : List TentryId), Links s.tnext ts → ts.length ≤ fuel →
    s.threadTentries thread fuel ts.head? acc =
      .ok ((ts.filter fun t => (s.tentries t).thread = some thread).reverse ++ acc)
  | [], fuel, _, _, _ => by cases fuel <;> rfl
  | t :: ts, 0, _, _, hfuel => absurd hfuel (Nat.not_succ_le_zero _)
  | t :: ts, fuel + 1, acc, h, hfuel => by
    show s.threadTentries thread fuel (s.tnext t) _ = _
    rw [h.1, threadTentries_spec thread _ h.2 (Nat.le_of_succ_le_succ hfuel), List.filter_cons]
    by_cases ht : (s.tentries t).thread = some thread
    · rw [if_pos ht, if_pos (decide_eq_true ht), List.reverse_cons, List.append_assoc]
      rfl
    · rw [if_neg ht, if_neg fun hd => ht (of_decide_eq_true hd)]

theorem threadDentries_spec (thread : ThreadId) : ∀ {gs : List Group} {fuel : Nat}
    (acc : List TentryId), Links s.dnext (gs.map fst) → gs.length ≤ fuel →
    (∀ g ∈ gs, s.GroupOk g ∧ g.2.length ≤ s.tentryCount) →
    s.threadDentries thread fuel (gs.map fst).head? acc =
      .ok (((gs.flatMap snd).filter fun t => (s.tentries t).thread = some thread).reverse ++
        acc)
  | [], fuel, _, _, _, _ => by cases fuel <;> rfl
  | g :: gs, 0, _, _, hfuel, _ => absurd hfuel (Nat.not_succ_le_zero _)
  | g :: gs, fuel + 1, acc, h, hfuel, hgs => by
    obtain ⟨hg, hlen⟩ := hgs g List.mem_cons_self
    have htentries := threadTentries_spec thread acc hg.linked.next hlen
    rw [List.map_cons, List.head?_cons, Io.threadDentries, hg.first, htentries]
    show s.threadDentries thread fuel (s.dnext g.1) _ = _
    rw [h.1, threadDentries_spec thread _ h.2 (Nat.le_of_succ_le_succ hfuel)
      fun k hk => hgs k (List.mem_cons_of_mem _ hk), List.flatMap_cons, List.filter_append,
      List.reverse_append, List.append_assoc]

theorem signalLoop_spec : ∀ {ts : List TentryId} {s : Io} {fuel : Nat},
    Links s.tnext ts → ts.length ≤ fuel → (∀ t ∈ ts, (s.tentries t).thread ≠ none) →
    ∃ signals, s.signalLoop fuel ts.head? = .done { s with signals }
  | [], s, fuel, _, _, _ => ⟨s.signals, by cases fuel <;> rfl⟩
  | t :: ts, s, 0, _, hfuel, _ => absurd hfuel (Nat.not_succ_le_zero _)
  | t :: ts, s, fuel + 1, h, hfuel, hthread => by
    obtain ⟨thread, ht⟩ := Option.ne_none_iff_exists'.mp (hthread t List.mem_cons_self)
    obtain ⟨signals, hloop⟩ := signalLoop_spec
      (s := s.signalTentry t thread (s.tentries t).event none) h.2 (Nat.le_of_succ_le_succ hfuel)
      fun u hu => hthread u (List.mem_cons_of_mem _ hu)
    refine ⟨signals, ?_⟩
    rw [List.head?_cons, Io.signalLoop, ht]
    show (s.signalTentry t thread (s.tentries t).event none).signalLoop fuel (s.tnext t) = _
    rw [h.1]
    exact hloop

theorem Shape.setSignals (h : s.Shape gs) (signals) : Shape { s with signals } gs :=
  ⟨⟨h.linked, h.first, fun g hg => (h.group g hg).congr rfl rfl rfl fun _ _ => rfl, h.keys,
    h.dentryCount, h.tentryCount⟩, h.registryOk, h.registry⟩

theorem descriptorLoop_spec (descriptor : Descriptor) : ∀ (done rest : List Group) {s : Io}
    {fuel : Nat}, s.Shape (done ++ rest) → rest.length ≤ fuel →
    ∃ s', s.descriptorLoop descriptor fuel (rest.map fst).head? = .done s' ∧
      s'.Shape (done ++ rest.filter fun g => (s.key g.1).1 ≠ descriptor) ∧ SameEntries s s'
  | done, [], s, fuel, h, _ => by
    refine ⟨s, by cases fuel <;> rfl, h, ⟨rfl, fun _ => rfl, rfl, rfl⟩⟩
  | done, g :: rest, s, 0, _, hfuel => absurd hfuel (Nat.not_succ_le_zero _)
  | done, g :: rest, s, fuel + 1, h, hfuel => by
    have hg := h.group g (by simp)
    have hlinked := h.linked
    rw [List.map_append, List.map_cons] at hlinked
    have hnext : s.dnext g.1 = (rest.map fst).head? := hlinked.next_eq
    by_cases hd : descriptor = (s.dentries g.1).descriptor
    · obtain ⟨signals, hsignals⟩ := signalLoop_spec hg.linked.next
        (h.tentries_length_le (show g ∈ done ++ g :: rest by simp)) hg.thread
      obtain ⟨s1, hs1, hshape1, hsame1, -, hnext1⟩ := (h.setSignals signals).removeDentry
      obtain ⟨s2, hs2, hshape2, hsame2⟩ := descriptorLoop_spec descriptor done rest hshape1
        (Nat.le_of_succ_le_succ hfuel)
      refine ⟨s2, ?_, ?_, SameEntries.trans
        ⟨hsame1.tentries, hsame1.key, hsame1.dentryCount, hsame1.tentryCount⟩ hsame2⟩
      · show s.descriptorLoop descriptor (fuel + 1) (some g.1) = _
        rw [Io.descriptorLoop, if_pos hd, hg.first, hsignals, Outcome.andThen, hs1, Outcome.andThen]
        show s1.descriptorLoop descriptor fuel (s1.dnext g.1) = _
        rw [hnext1]
        show s1.descriptorLoop descriptor fuel (s.dnext g.1) = _
        rw [hnext]
        exact hs2
      · rw [List.filter_cons, if_neg (by simp [Io.key, hd])]
        have hkey : ∀ k : Group, s1.key k.1 = s.key k.1 := fun k => hsame1.key k.1
        simp only [hkey] at hshape2
        exact hshape2
    · obtain ⟨s2, hs2, hshape2, hsame2⟩ := descriptorLoop_spec descriptor (done ++ [g]) rest
        (s := s) (by simpa using h) (Nat.le_of_succ_le_succ hfuel)
      refine ⟨s2, ?_, ?_, hsame2⟩
      · show s.descriptorLoop descriptor (fuel + 1) (some g.1) = _
        rw [Io.descriptorLoop, if_neg hd]
        show s.descriptorLoop descriptor fuel (s.dnext g.1) = _
        rw [hnext]
        exact hs2
      · have hne : (s.key g.1).1 ≠ descriptor := Ne.symm hd
        rw [List.filter_cons, if_pos (decide_eq_true hne)]
        simpa using hshape2

end Io

end MitScheme.Runtime.IoRegistration
