import MitScheme.Runtime.IoRegistrationOps

/-! # Histories of I/O registrations

The registrations that are active and the lists agree after every history. -/

namespace MitScheme.Runtime.IoRegistration
open Lib.DoublyLinked Lib.Machine
open ThreadKernel (ThreadId)

namespace World

/-- The registrations that are active are on the lists, and those that are over and
were not dropped have left their dentry. -/
structure Inv (w : World) (gs : List Group) : Prop where
  shape : w.io.Shape gs
  full : ∀ g ∈ gs, g.2 ≠ []
  active : (gs.flatMap Prod.snd).Perm (w.active.map Registration.id)
  fields : ∀ r ∈ w.active, (w.io.tentries r.id).thread = some r.thread ∧
    (w.io.tentries r.id).event = r.event
  key : ∀ r ∈ w.active, (w.io.tentries r.id).dentry.map w.io.key = some (r.descriptor, r.mode)
  inactive : ∀ t < w.io.tentryCount, t ∉ gs.flatMap Prod.snd → t ∉ w.dropped →
    (w.io.tentries t).dentry = none

variable {w : World} {gs : List Group} {io : Io}

theorem inv_initial : initial.Inv [] := by
  refine ⟨⟨⟨dlinked_nil, rfl, ?_, List.nodup_nil, ?_, ?_⟩, ⟨List.nodup_nil, ?_⟩, ?_⟩, ?_, List.Perm.refl _,
    ?_, ?_, fun _ _ _ _ => rfl⟩
  · exact fun _ hg => absurd hg List.not_mem_nil
  · exact fun _ hg => absurd hg List.not_mem_nil
  · exact fun _ hg => absurd hg List.not_mem_nil
  · exact fun _ he => absurd he List.not_mem_nil
  · intro fd mode
    refine iff_of_false ?_ List.not_mem_nil
    cases mode <;> simp [Asks, requested, initial]
  · exact fun _ hg => absurd hg List.not_mem_nil
  · exact fun _ hr => absurd hr List.not_mem_nil
  · exact fun _ hr => absurd hr List.not_mem_nil

section
variable (h : w.Inv gs)
include h

theorem Inv.mem_lists {r} (hr : r ∈ w.active) : r.id ∈ gs.flatMap Prod.snd :=
  h.active.mem_iff.mpr (List.mem_map_of_mem hr)

theorem Inv.exists_group {r} (hr : r ∈ w.active) :
    ∃ g ∈ gs, r.id ∈ g.2 ∧ w.io.key g.1 = (r.descriptor, r.mode) := by
  obtain ⟨g, hg, hrg⟩ := List.mem_flatMap.mp (h.mem_lists hr)
  have hkey := h.key r hr
  rw [(h.shape.group g hg).dentry r.id hrg] at hkey
  exact ⟨g, hg, hrg, Option.some.inj hkey⟩

theorem Inv.exists_registration {g} (hg : g ∈ gs) {t} (ht : t ∈ g.2) :
    ∃ r ∈ w.active, r.id = t ∧ w.io.key g.1 = (r.descriptor, r.mode) := by
  have hm := h.active.mem_iff.mp (List.mem_flatMap.mpr ⟨g, hg, ht⟩)
  obtain ⟨r, hr, rfl⟩ := List.mem_map.mp hm
  have hkey := h.key r hr
  rw [(h.shape.group g hg).dentry r.id ht] at hkey
  exact ⟨r, hr, rfl, Option.some.inj hkey⟩

theorem Inv.delete {ts} (hshape : io.Shape (Io.without ts gs)) (hdel : Io.Deletes w.io io ts) :
    Inv { w with io, active := w.active.filter (·.id ∉ ts) } (Io.without ts gs) := by
  refine ⟨hshape, Io.without_full, ?_, ?_, ?_, ?_⟩
  · rw [Io.flatMap_without]
    refine (h.active.filter _).trans ?_
    rw [List.filter_map]
    exact List.Perm.refl _
  · intro r hr
    obtain ⟨hr, hrts⟩ := List.mem_filter.mp hr
    obtain ⟨-, hthread, hevent⟩ := hdel.kept r.id (of_decide_eq_true hrts)
    obtain ⟨h1, h2⟩ := h.fields r hr
    exact ⟨hthread.trans h1, hevent.trans h2⟩
  · intro r hr
    obtain ⟨hr, hrts⟩ := List.mem_filter.mp hr
    obtain ⟨hdentry, -, -⟩ := hdel.kept r.id (of_decide_eq_true hrts)
    show (io.tentries r.id).dentry.map io.key = _
    rw [hdentry, funext hdel.key]
    exact h.key r hr
  · intro t ht hnot hdropped
    show (io.tentries t).dentry = none
    by_cases hts : t ∈ ts
    · exact hdel.gone t hts
    · rw [(hdel.kept t hts).1]
      refine h.inactive t (hdel.tentryCount ▸ ht) ?_ hdropped
      intro hin
      refine hnot ?_
      rw [Io.flatMap_without]
      exact List.mem_filter.mpr ⟨hin, decide_eq_true hts⟩

theorem Inv.dropKeys (p : Descriptor × Mode → Bool)
    (hshape : io.Shape (gs.filter fun g => !p (w.io.key g.1))) (hsame : Io.SameEntries w.io io) :
    (w.drop io fun r => p (r.descriptor, r.mode)).Inv (gs.filter fun g => !p (w.io.key g.1)) := by
  have hin : ∀ {g : Group}, g ∈ gs → ∀ {t}, t ∈ g.2 →
      ((w.io.tentries t).dentry.map w.io.key).all (!p ·) = !p (w.io.key g.1) := by
    intro g hg t ht
    rw [(h.shape.group g hg).dentry t ht]
    rfl
  have hflat : (gs.filter fun g => !p (w.io.key g.1)).flatMap Prod.snd =
      (gs.flatMap Prod.snd).filter
        fun t => ((w.io.tentries t).dentry.map w.io.key).all (!p ·) := by
    have hsub : ∀ l : List Group, (∀ g ∈ l, g ∈ gs) →
        (l.filter fun g => !p (w.io.key g.1)).flatMap Prod.snd = (l.flatMap Prod.snd).filter
          fun t => ((w.io.tentries t).dentry.map w.io.key).all (!p ·) := by
      intro l
      induction l with
      | nil => exact fun _ => rfl
      | cons g l ih =>
        intro hl
        have hg := hl g List.mem_cons_self
        have htail := ih fun k hk => hl k (List.mem_cons_of_mem _ hk)
        rw [List.flatMap_cons, List.filter_append, ← htail, List.filter_cons]
        cases hp : p (w.io.key g.1) with
        | true =>
          have hnil : g.2.filter
              (fun t => ((w.io.tentries t).dentry.map w.io.key).all (!p ·)) = [] := by
            refine List.filter_eq_nil_iff.mpr fun t ht => ?_
            rw [hin hg ht, hp]
            exact Bool.false_ne_true
          rw [hnil]
          rfl
        | false =>
          have hself : g.2.filter
              (fun t => ((w.io.tentries t).dentry.map w.io.key).all (!p ·)) = g.2 := by
            refine List.filter_eq_self.mpr fun t ht => ?_
            rw [hin hg ht, hp]
            rfl
          rw [hself]
          rfl
    exact hsub gs fun _ hg => hg
  refine ⟨hshape, fun g hg => h.full g (List.mem_filter.mp hg).1, ?_, ?_, ?_, ?_⟩
  · rw [hflat]
    refine (h.active.filter _).trans ?_
    rw [List.filter_map]
    refine List.Perm.of_eq (congrArg _ (List.filter_congr fun r hr => ?_))
    show ((w.io.tentries r.id).dentry.map w.io.key).all (!p ·) = _
    rw [h.key r hr]
    rfl
  · intro r hr
    show (io.tentries r.id).thread = _ ∧ (io.tentries r.id).event = _
    rw [hsame.tentries]
    exact h.fields r (List.mem_filter.mp hr).1
  · intro r hr
    show (io.tentries r.id).dentry.map io.key = _
    rw [hsame.tentries, funext hsame.key]
    exact h.key r (List.mem_filter.mp hr).1
  · intro t ht hnot hdropped
    show (io.tentries t).dentry = none
    obtain ⟨hdropped, hnew⟩ := not_or.mp (mt List.mem_append.mpr hdropped)
    rw [hsame.tentries]
    refine h.inactive t (hsame.tentryCount ▸ ht) ?_ hdropped
    intro hin'
    obtain ⟨g, hg, htg⟩ := List.mem_flatMap.mp hin'
    obtain ⟨r, hr, rfl, hkey⟩ := h.exists_registration hg htg
    cases hp : p (r.descriptor, r.mode) with
    | true => exact hnew (List.mem_map_of_mem (List.mem_filter.mpr ⟨hr, hp⟩))
    | false =>
      refine hnot (List.mem_flatMap.mpr ⟨g, List.mem_filter.mpr ⟨hg, ?_⟩, htg⟩)
      rw [hkey, hp]
      rfl

theorem Inv.nodup : (gs.flatMap Prod.snd).Nodup := by
  refine List.nodup_flatMap.mpr ⟨fun g hg => (h.shape.group g hg).linked.nodup, ?_⟩
  have hnodup := List.pairwise_map.mp h.shape.linked.nodup
  refine hnodup.imp_of_mem ?_
  intro g k hg hk hne t htg htk
  exact hne (h.shape.disjoint hg hk htg htk)

/-! ### The operations -/

theorem Inv.register (descriptor) {mode} (hmode : mode.Polled) (thread event) :
    ∃ io gs', w.io.registerIoThreadEvent descriptor mode thread event = .done io ∧
      Inv { w with io, active :=
        w.active ++ [⟨w.io.tentryCount, descriptor, mode, thread, event⟩] } gs' := by
  obtain ⟨io, gs', hio, hshape, hfull, hperm, hreg⟩ := h.shape.register h.full descriptor hmode thread event
  have hold : ∀ r ∈ w.active, r.id ≠ w.io.tentryCount := by
    intro r hr heq
    obtain ⟨g, hg, hrg⟩ := List.mem_flatMap.mp (h.mem_lists hr)
    exact Nat.ne_of_lt (h.shape.tentryCount g hg r.id hrg) heq
  refine ⟨io, gs', hio, hshape, hfull, ?_, ?_, ?_, ?_⟩
  · rw [List.map_append]
    exact hperm.trans (h.active.append_right _)
  · intro r hr
    rcases List.mem_append.mp hr with hr | hr
    · obtain ⟨-, hthread, hevent⟩ := hreg.kept r.id (hold r hr)
      obtain ⟨h1, h2⟩ := h.fields r hr
      exact ⟨hthread.trans h1, hevent.trans h2⟩
    · rw [List.mem_singleton.mp hr]
      exact hreg.fields
  · intro r hr
    show (io.tentries r.id).dentry.map io.key = _
    rcases List.mem_append.mp hr with hr | hr
    · obtain ⟨g, hg, hrg, hkey⟩ := h.exists_group hr
      rw [(hreg.kept r.id (hold r hr)).1, (h.shape.group g hg).dentry r.id hrg, Option.map_some,
        hreg.key g.1 (h.shape.dentryCount g hg), hkey]
    · rw [List.mem_singleton.mp hr]
      obtain ⟨d, hd, hkey⟩ := hreg.added
      dsimp only
      rw [hd, Option.map_some, hkey]
  · intro t ht hnot hdropped
    show (io.tentries t).dentry = none
    have hnot' := mt hperm.mem_iff.mpr hnot
    rw [List.mem_append, List.mem_singleton, not_or] at hnot'
    have hle : t < w.io.tentryCount + 1 := hreg.tentryCount ▸ ht
    have hlt : t < w.io.tentryCount := Nat.lt_of_le_of_ne (Nat.le_of_lt_succ hle) hnot'.2
    rw [(hreg.kept t hnot'.2).1]
    exact h.inactive t hlt hnot'.1 hdropped

theorem Inv.deregister_inactive {t} (ht : t < w.io.tentryCount)
    (hactive : t ∉ w.active.map Registration.id) (hdropped : t ∉ w.dropped) :
    w.io.deregisterIoThreadEvent t = .done w.io := by
  rw [Io.deregisterIoThreadEvent, if_pos ht,
    if_pos (h.inactive t ht (mt h.active.mem_iff.mp hactive) hdropped)]

theorem Inv.deregister {t} (ht : t < w.io.tentryCount) (hdropped : t ∉ w.dropped) :
    ∃ io gs', w.io.deregisterIoThreadEvent t = .done io ∧
      Inv { w with io, active := w.active.filter (·.id ≠ t) } gs' := by
  by_cases hactive : t ∈ w.active.map Registration.id
  · have hin := h.active.mem_iff.mpr hactive
    obtain ⟨io, hio, hshape, hdel⟩ := h.shape.deleteTentry h.full hin
    obtain ⟨g, hg, htg⟩ := List.mem_flatMap.mp hin
    refine ⟨io, Io.without [t] gs, ?_, ?_⟩
    · rw [Io.deregisterIoThreadEvent, if_pos ht, if_neg, hio]
      rw [(h.shape.group g hg).dentry t htg]
      exact Option.some_ne_none _
    · have hdelete := h.delete hshape hdel
      simp only [List.mem_singleton] at hdelete
      exact hdelete
  · refine ⟨w.io, gs, h.deregister_inactive ht hactive hdropped, ?_⟩
    have hself : w.active.filter (·.id ≠ t) = w.active := by
      refine List.filter_eq_self.mpr fun r hr => decide_eq_true ?_
      exact fun heq => hactive (heq ▸ List.mem_map_of_mem hr)
    rw [hself]
    exact h

theorem Inv.polled {r} (hr : r ∈ w.active) : r.mode.Polled := by
  obtain ⟨g, hg, -, hkey⟩ := h.exists_group hr
  have hpolled := (h.shape.group g hg).polled
  have hmode : (w.io.dentries g.1).mode = r.mode := congrArg Prod.snd hkey
  exact hmode ▸ hpolled

theorem Inv.deregisterDescriptorEvents (descriptor : Descriptor) {mode}
    (hmode : Io.guaranteeSelectMode mode = true) :
    ∃ io gs', w.io.deregisterIoDescriptorEvents descriptor mode = .done io ∧
      (w.drop io fun r => decide ((r.descriptor, r.mode) = (descriptor, mode))).Inv gs' := by
  rw [Io.deregisterIoDescriptorEvents, if_pos hmode, h.shape.toLists.search]
  cases hfind : gs.find? fun g => Io.isFor descriptor mode (w.io.dentries g.1) with
  | none =>
    have hself : (gs.filter fun g => !decide (w.io.key g.1 = (descriptor, mode))) = gs := by
      refine List.filter_eq_self.mpr fun g hg => ?_
      have hno := List.find?_eq_none.mp hfind g hg
      rw [Io.isFor_iff] at hno
      rw [decide_eq_false hno]
      rfl
    exact ⟨w.io, _, rfl, h.dropKeys (fun key => decide (key = (descriptor, mode)))
      (hself.symm ▸ h.shape) ⟨rfl, fun _ => rfl, rfl, rfl⟩⟩
  | some g =>
    obtain ⟨hg, pre, post, hgs, -⟩ := List.find?_eq_some_iff_append.mp hfind
    have hkey : w.io.key g.1 = (descriptor, mode) := Io.isFor_iff.mp hg
    have hshape := h.shape
    rw [hgs] at hshape
    obtain ⟨io, hio, hshape', hsame, -, -⟩ := hshape.removeDentry
    have hfilter : (gs.filter fun g => !decide (w.io.key g.1 = (descriptor, mode))) =
        pre ++ post := by
      have hkeys := hshape.keys
      rw [List.map_append, List.map_cons, List.nodup_middle, ← List.map_append, hkey] at hkeys
      have hnotin := (List.nodup_cons.mp hkeys).1
      have hkeep : ∀ l : List Group, (∀ k ∈ l, k ∈ pre ++ post) →
          (l.filter fun g => !decide (w.io.key g.1 = (descriptor, mode))) = l := by
        intro l hl
        refine List.filter_eq_self.mpr fun k hk => ?_
        rw [decide_eq_false]
        · rfl
        · exact fun heq => hnotin (List.mem_map.mpr ⟨k, hl k hk, heq⟩)
      rw [hgs, List.filter_append, List.filter_cons, if_neg (by simp [hkey]),
        hkeep pre fun k hk => List.mem_append_left _ hk,
        hkeep post fun k hk => List.mem_append_right _ hk]
    exact ⟨io, _, hio, h.dropKeys (fun key => decide (key = (descriptor, mode)))
      (hfilter.symm ▸ hshape') hsame⟩

theorem Inv.deregisterDescriptor (descriptor : Descriptor) :
    ∃ io gs', w.io.deregisterIoDescriptor descriptor = .done io ∧
      (w.drop io fun r => decide (r.descriptor = descriptor)).Inv gs' := by
  obtain ⟨io, hio, hshape, hsame⟩ := Io.descriptorLoop_spec descriptor [] gs
    (s := w.io) h.shape h.shape.toLists.length_le
  refine ⟨io, _, ?_, h.dropKeys (fun key => decide (key.1 = descriptor)) ?_ hsame⟩
  · rw [Io.deregisterIoDescriptor, h.shape.first]
    exact hio
  · simp only [← decide_not]
    exact hshape

theorem Inv.exit (thread) :
    ∃ io gs', w.io.deregisterIoThreadEvents thread = .done io ∧
      Inv { w with io, active := w.active.filter (·.thread ≠ thread) } gs' := by
  have hthreads := Io.threadDentries_spec (s := w.io) thread [] h.shape.linked.next
    h.shape.toLists.length_le fun g hg => ⟨h.shape.group g hg, h.shape.tentries_length_le hg⟩
  rw [List.append_nil] at hthreads
  generalize hts : ((gs.flatMap Prod.snd).filter
    fun t => decide ((w.io.tentries t).thread = some thread)).reverse = ts at hthreads
  have hmem : ∀ t, t ∈ ts ↔ t ∈ gs.flatMap Prod.snd ∧ (w.io.tentries t).thread = some thread := by
    intro t
    rw [← hts, List.mem_reverse, List.mem_filter, decide_eq_true_iff]
  have hnodup : ts.Nodup := by
    rw [← hts, List.nodup_reverse]
    exact h.nodup.filter _
  obtain ⟨io, hio, hshape, hdel⟩ :=
    h.shape.deleteTentries h.full hnodup fun t ht => ((hmem t).mp ht).1
  refine ⟨io, Io.without ts gs, ?_, ?_⟩
  · rw [Io.deregisterIoThreadEvents, h.shape.first, hthreads]
    exact hio
  · have hfilter : w.active.filter (·.thread ≠ thread) = w.active.filter (·.id ∉ ts) := by
      refine List.filter_congr fun r hr => decide_eq_decide.mpr (not_congr ?_)
      rw [hmem, (h.fields r hr).1, Option.some.injEq]
      exact ⟨fun heq => ⟨h.mem_lists hr, heq⟩, And.right⟩
    rw [hfilter]
    exact h.delete hshape hdel

end

/-- What a delivery signals: with each result a registration it is for, if one is active. -/
structure Delivers (w : World) (results : List (Descriptor × Readiness)) (new : List Signal) :
    Prop where
  active : ∀ e ∈ new, ∃ r ∈ w.active, e.tentry = r.id ∧ e.thread = r.thread ∧
    ∃ ready, e.event = r.event.map fun event => (event, some ready)
  results : ∀ result ∈ results, ∀ r ∈ w.active, r.descriptor = result.1 →
    Io.wants result.2 r.mode → ∃ q ∈ w.active, q.descriptor = result.1 ∧
      Io.wants result.2 q.mode ∧ ∃ e ∈ new, e.tentry = q.id

theorem Inv.deliver (h : w.Inv gs) (results) :
    ∃ io gs' new, w.io.signalIoThreadEvents results = .done io ∧
      io.signals = w.io.signals ++ new ∧ Delivers w results new ∧
      Inv { w with io, active := w.active.filter (·.id ∉ new.map Signal.tentry) } gs' := by
  obtain ⟨s, new, hs, hshape, hdel, hnew, hresults⟩ :=
    Io.resultLoop_spec results [] h.shape h.full
  rw [List.append_nil] at hs
  refine ⟨_, Io.without (new.map Signal.tentry) gs, new, hs, ?_, ⟨?_, ?_⟩, ?_⟩
  · show s.signals ++ new = _
    rw [hdel.signals]
  · intro e he
    obtain ⟨hin, hthread, ready, hready⟩ := hnew e he
    obtain ⟨r, hr, hre⟩ := List.mem_map.mp (h.active.mem_iff.mp hin)
    obtain ⟨hrthread, hrevent⟩ := h.fields r hr
    rw [← hre] at hthread hready
    rw [hrevent] at hready
    exact ⟨r, hr, hre.symm, Option.some.inj (hthread.symm.trans hrthread), ready, hready⟩
  · intro result hresult r hr hdescriptor hwants
    obtain ⟨g, hg, -, hkey⟩ := h.exists_group hr
    obtain ⟨k, hk, hkfd, hkwants, e, he, hek⟩ := hresults result hresult g hg
      (by rw [hkey]; exact hdescriptor) (by rw [hkey]; exact hwants)
    obtain ⟨q, hq, hqe, hqkey⟩ := h.exists_registration hk hek
    rw [hqkey] at hkfd hkwants
    exact ⟨q, hq, hkfd, hkwants, e, he, hqe.symm⟩
  · have hinv := h.delete hshape hdel
    exact ⟨hinv.shape.setSignals _, hinv.full, hinv.active, hinv.fields, hinv.key, hinv.inactive⟩

/-! ### Steps -/

def Accepted (w : World) : Action → Prop
  | .register _ mode _ _ => Io.guaranteeSelectMode mode = true
  | .deregister t => t < w.io.tentryCount
  | .deregisterDescriptorEvents _ mode => Io.guaranteeSelectMode mode = true
  | _ => True

def Overlaps : Readiness → Mode → Prop
  | .read, mode => mode ≠ .write
  | .write, mode => mode ≠ .read
  | _, _ => True

instance : ∀ ready mode, Decidable (Overlaps ready mode)
  | .read, mode => inferInstanceAs (Decidable (mode ≠ .write))
  | .write, mode => inferInstanceAs (Decidable (mode ≠ .read))
  | .readWrite, _ | .error, _ | .hangup, _ => isTrue trivial

theorem wants_of_overlaps {ready mode} (hmode : mode.Polled) :
    Io.wants ready mode = true ↔ Overlaps ready mode := by
  rcases hmode with rfl | rfl <;> cases ready <;> simp [Io.wants, Overlaps]

abbrev Serves (result : Descriptor × Readiness) (r : Registration) : Prop :=
  r.descriptor = result.1 ∧ Overlaps result.2 r.mode

/-- `signal-io-thread-events` signals one tentry for each result, the first of the first
dentry that the result serves. -/
def ServesOne (w : World) (results : List (Descriptor × Readiness)) : Prop :=
  ∀ result ∈ results, ∀ r ∈ w.active, ∀ q ∈ w.active,
    Serves result r → Serves result q → r.id = q.id

instance (w : World) (results : List (Descriptor × Readiness)) : Decidable (w.ServesOne results) :=
  inferInstanceAs (Decidable (∀ _ ∈ _, _))

/-- No registration for `read-write`, none deregistered after it was dropped with its
descriptor, and no result that serves two active registrations. -/
def Respects (w : World) : Action → Prop
  | .register _ mode _ _ => mode ≠ .readHyphenWrite
  | .deregister t => t ∉ w.dropped
  | .deliver results => w.ServesOne results
  | _ => True

instance : ∀ (w : World) (action : Action), Decidable (w.Respects action)
  | _, .register _ mode _ _ => inferInstanceAs (Decidable (mode ≠ .readHyphenWrite))
  | w, .deregister t => inferInstanceAs (Decidable (t ∉ w.dropped))
  | _, .deregisterDescriptorEvents _ _ => isTrue trivial
  | _, .deregisterDescriptor _ => isTrue trivial
  | _, .exit _ => isTrue trivial
  | w, .deliver results => inferInstanceAs (Decidable (w.ServesOne results))

theorem polled_of_accepted {mode} (haccepted : Io.guaranteeSelectMode mode = true)
    (hmode : mode ≠ .readHyphenWrite) : mode.Polled := by
  cases mode with
  | read => exact .inl rfl
  | write => exact .inr rfl
  | readHyphenWrite => exact absurd rfl hmode
  | readSlashWrite => exact absurd haccepted (by decide)

theorem Inv.call_done (h : w.Inv gs) {action} (hrespects : w.Respects action)
    (haccepted : w.Accepted action) : ∃ io, w.call action = .done io := by
  cases action with
  | register descriptor mode thread event =>
    obtain ⟨io, -, hio, -⟩ :=
      h.register descriptor (polled_of_accepted haccepted hrespects) thread event
    exact ⟨io, hio⟩
  | deregister t =>
    obtain ⟨io, -, hio, -⟩ := h.deregister haccepted hrespects
    exact ⟨io, hio⟩
  | deregisterDescriptorEvents descriptor mode =>
    obtain ⟨io, -, hio, -⟩ := h.deregisterDescriptorEvents descriptor haccepted
    exact ⟨io, hio⟩
  | deregisterDescriptor descriptor =>
    obtain ⟨io, -, hio, -⟩ := h.deregisterDescriptor descriptor
    exact ⟨io, hio⟩
  | exit thread =>
    obtain ⟨io, -, hio, -⟩ := h.exit thread
    exact ⟨io, hio⟩
  | deliver results =>
    obtain ⟨io, -, -, hio, -⟩ := h.deliver results
    exact ⟨io, hio⟩

theorem call_refused {action} (hrefused : ¬w.Accepted action) : (w.call action).io = w.io := by
  cases action with
  | register descriptor mode thread event =>
    show (w.io.registerIoThreadEvent descriptor mode thread event).io = w.io
    rw [Io.registerIoThreadEvent, if_neg (show ¬Io.guaranteeSelectMode mode = true from hrefused)]
    rfl
  | deregister t =>
    show (w.io.deregisterIoThreadEvent t).io = w.io
    rw [Io.deregisterIoThreadEvent, if_neg (show ¬t < w.io.tentryCount from hrefused)]
    rfl
  | deregisterDescriptorEvents descriptor mode =>
    show (w.io.deregisterIoDescriptorEvents descriptor mode).io = w.io
    rw [Io.deregisterIoDescriptorEvents,
      if_neg (show ¬Io.guaranteeSelectMode mode = true from hrefused)]
    rfl
  | deregisterDescriptor descriptor => exact absurd trivial hrefused
  | exit thread => exact absurd trivial hrefused
  | deliver results => exact absurd trivial hrefused

theorem Inv.step_refused (h : w.Inv gs) {action} (hrefused : ¬w.Accepted action) :
    w.step action = some w := by
  have hio := call_refused hrefused
  cases action with
  | register descriptor mode thread event =>
    rw [World.step, hio, if_neg (show ¬Io.guaranteeSelectMode mode = true from hrefused)]
  | deregister t =>
    have hself : w.active.filter (·.id ≠ t) = w.active := by
      refine List.filter_eq_self.mpr fun r hr => decide_eq_true ?_
      rintro rfl
      obtain ⟨g, hg, hrg⟩ := List.mem_flatMap.mp (h.mem_lists hr)
      exact hrefused (h.shape.tentryCount g hg r.id hrg)
    rw [World.step, hio, hself]
  | deregisterDescriptorEvents descriptor mode =>
    have hnone : ∀ r ∈ w.active, ¬(r.descriptor = descriptor ∧ r.mode = mode) := by
      rintro r hr ⟨-, rfl⟩
      refine hrefused ?_
      show Io.guaranteeSelectMode r.mode = true
      rcases h.polled hr with hmode | hmode <;> rw [hmode] <;> rfl
    have hnil : w.active.filter (fun r => decide (r.descriptor = descriptor ∧ r.mode = mode)) = [] :=
      List.filter_eq_nil_iff.mpr fun r hr hd => hnone r hr (of_decide_eq_true hd)
    have hself : w.active.filter
        (fun r => !decide (r.descriptor = descriptor ∧ r.mode = mode)) = w.active := by
      refine List.filter_eq_self.mpr fun r hr => ?_
      rw [decide_eq_false (hnone r hr)]
      rfl
    rw [World.step, hio, World.drop, hnil, hself, List.map_nil, List.append_nil]
  | deregisterDescriptor descriptor => exact absurd trivial hrefused
  | exit thread => exact absurd trivial hrefused
  | deliver results => exact absurd trivial hrefused

theorem Inv.step (h : w.Inv gs) {action} (hrespects : w.Respects action) {w'}
    (hstep : w.step action = some w') : ∃ gs', w'.Inv gs' := by
  by_cases haccepted : w.Accepted action
  case neg =>
    rw [h.step_refused haccepted] at hstep
    obtain rfl := Option.some.inj hstep
    exact ⟨gs, h⟩
  obtain rfl := Option.some.inj hstep
  cases action with
  | register descriptor mode thread event =>
    obtain ⟨io, gs', hio, hinv⟩ :=
      h.register descriptor (polled_of_accepted haccepted hrespects) thread event
    refine ⟨gs', ?_⟩
    dsimp only [World.call]
    rw [hio, if_pos (show Io.guaranteeSelectMode mode = true from haccepted)]
    exact hinv
  | deregister t =>
    obtain ⟨io, gs', hio, hinv⟩ := h.deregister haccepted hrespects
    refine ⟨gs', ?_⟩
    dsimp only [World.call]
    rw [hio]
    exact hinv
  | deregisterDescriptorEvents descriptor mode =>
    obtain ⟨io, gs', hio, hinv⟩ := h.deregisterDescriptorEvents descriptor haccepted
    refine ⟨gs', ?_⟩
    dsimp only [World.call]
    rw [hio]
    simp only [Prod.mk.injEq] at hinv
    exact hinv
  | deregisterDescriptor descriptor =>
    obtain ⟨io, gs', hio, hinv⟩ := h.deregisterDescriptor descriptor
    refine ⟨gs', ?_⟩
    dsimp only [World.call]
    rw [hio]
    exact hinv
  | exit thread =>
    obtain ⟨io, gs', hio, hinv⟩ := h.exit thread
    refine ⟨gs', ?_⟩
    dsimp only [World.call]
    rw [hio]
    exact hinv
  | deliver results =>
    obtain ⟨io, gs', new, hio, hsignals, -, hinv⟩ := h.deliver results
    refine ⟨gs', ?_⟩
    dsimp only [World.call]
    rw [hio, Outcome.io, hsignals, List.drop_left]
    exact hinv

/-- The registrations are on well-formed lists of dentries, one for each descriptor and
mode, which are what the registry asks for; each of these groups is a dentry with its
tentries. -/
structure Listed (w : World) (gs : List Group) : Prop where
  lists : w.io.Lists gs
  tentries : (gs.flatMap Prod.snd).Perm (w.active.map Registration.id)
  nodup : (gs.flatMap Prod.snd).Nodup
  dentry : ∀ r ∈ w.active, ∃ g ∈ gs, r.id ∈ g.2 ∧ w.io.key g.1 = (r.descriptor, r.mode)
  fields : ∀ r ∈ w.active, (w.io.tentries r.id).thread = some r.thread ∧
    (w.io.tentries r.id).event = r.event
  full : ∀ g ∈ gs, g.2 ≠ []
  registryOk : RegistryOk w.io.registry
  registry : ∀ fd mode, Asks w.io.registry fd mode ↔ (fd, mode) ∈ gs.map fun g => w.io.key g.1

/-- What a delivery of select results signals: active registrations only, and each one that
a result serves. -/
structure Delivery (w : World) (results : List (Descriptor × Readiness)) (new : List Signal) :
    Prop where
  active : ∀ e ∈ new, ∃ r ∈ w.active, e.tentry = r.id ∧ e.thread = r.thread ∧
    ∃ ready, e.event = r.event.map fun event => (event, some ready)
  served : ∀ result ∈ results, ∀ r ∈ w.active, Serves result r → ∃ e ∈ new, e.tentry = r.id

structure Sound (w : World) : Prop where
  listed : ∃ gs, w.Listed gs
  inactive : ∀ t < w.io.tentryCount, t ∉ w.active.map Registration.id → t ∉ w.dropped →
    w.io.deregisterIoThreadEvent t = .done w.io
  delivery : ∀ results, w.Respects (.deliver results) → ∃ new,
    (w.io.signalIoThreadEvents results).io.signals = w.io.signals ++ new ∧ w.Delivery results new
  done : ∀ action, w.Respects action → w.Accepted action → ∃ io, w.call action = .done io

theorem Inv.sound (h : w.Inv gs) : w.Sound := by
  refine ⟨⟨gs, h.shape.toLists, h.active, h.nodup, fun r hr => h.exists_group hr, h.fields, h.full,
    h.shape.registryOk, h.shape.registry⟩, ?_, ?_, fun action => h.call_done⟩
  · exact fun t ht hactive hdropped => h.deregister_inactive ht hactive hdropped
  · intro results hone
    obtain ⟨io, -, new, hio, hsignals, hdelivers, -⟩ := h.deliver results
    refine ⟨new, by rw [hio]; exact hsignals, hdelivers.active, ?_⟩
    intro result hresult r hr hserved
    obtain ⟨q, hq, hqd, hqw, e, he, hqe⟩ := hdelivers.results result hresult r hr hserved.1
      ((wants_of_overlaps (h.polled hr)).mpr hserved.2)
    -- the registration that is signalled is the only one that the result serves
    have hqserved : Serves result q := ⟨hqd, (wants_of_overlaps (h.polled hq)).mp hqw⟩
    exact ⟨e, he, hqe.trans (hone result hresult q hq r hr hqserved hserved)⟩

/-- **The registrations on the lists are the active ones**, in every run that makes no
registration for `read-write`, deregisters none that was dropped with its descriptor and
gets no result that serves two of them. -/
theorem io_registrations_sound (actions : List Action) {w : World}
    (hrun : run step initial actions = some w) (hrespects : Along step Respects initial actions) :
    w.Sound := by
  have hstep : ∀ {w : World} {a : Action} {w' : World}, (∃ gs, w.Inv gs) → w.Respects a →
      w.step a = some w' → ∃ gs, w'.Inv gs := by
    rintro w a w' ⟨gs, h⟩ hc hs
    exact h.step hc hs
  obtain ⟨gs, h⟩ := run_invariant hstep ⟨[], inv_initial⟩ hrespects hrun
  exact h.sound

theorem io_registrations_sound_two_threads :
    ∃ w, run step initial [.register 5 .read 0 none, .register 5 .read 1 (some 7),
        .deregister 0, .deregister 0, .register 5 .write 0 none, .deliver [(5, .write)]]
        = some w ∧ w.active.map Registration.id = [1] ∧ w.Sound := by
  refine ⟨_, rfl, rfl, ?_⟩
  exact io_registrations_sound [.register 5 .read 0 none, .register 5 .read 1 (some 7),
    .deregister 0, .deregister 0, .register 5 .write 0 none, .deliver [(5, .write)]] rfl
    (by decide)

/-- The tentry of a closed descriptor still has its dentry, whose stale links cut off
the list: registration 1 is active and asked for, but on no list. And `read-write` passes
the check, but the registry does not know it and no result finds it. -/
theorem io_registrations_stale_links :
    (∃ w, run step initial [.register 5 .read 0 none, .deregisterDescriptor 5,
        .register 6 .read 1 none, .deregister 0] = some w ∧
      w.io.registrations = none ∧ w.active.map Registration.id = [1] ∧
      w.io.registry = [⟨6, ⟨true, false⟩⟩] ∧ ¬w.Sound) ∧
    ∃ w, run step initial [.register 5 .readHyphenWrite 0 none] = some w ∧
      w.io.registrations = some 0 ∧ w.active.map Registration.id = [0] ∧ w.io.registry = [] ∧
      (w.io.signalIoThreadEvents [(5, .read)]).io.signals = [] := by
  refine ⟨⟨_, rfl, rfl, rfl, rfl, ?_⟩, ⟨_, rfl, rfl, rfl, rfl, rfl⟩⟩
  rintro ⟨⟨gs, hgs⟩, -, -, -⟩
  have hnil : gs = [] := by
    have hfirst := hgs.lists.first
    exact List.map_eq_nil_iff.mp (List.head?_eq_none_iff.mp hfirst.symm)
  subst hnil
  exact absurd hgs.tentries.length_eq (by decide)

end World

end MitScheme.Runtime.IoRegistration
