import MitScheme.Runtime.TaskLocals

/-! # Task-local values follow the extents of a task

The field of a task is the list of the extents of its current point that bind a value, before what
the task has inherited. A move in the state space of a thread brings the list of its target. -/

namespace MitScheme.Runtime.TaskLocals
open Lib.Machine Lib.PathTree StateSpace Function

variable {V : Type} {s s' : World V} {d d' : Scopes V} {e e' : Extents}
  {base : TaskId → Bindings V} {i j : TaskId} {x q : PointId}

/-! ## The two levels -/

def spaceOf (i : TaskId) : SpaceId := i + 1

theorem spaceOf_ne (h : i ≠ j) : spaceOf i ≠ spaceOf j := fun heq => h (Nat.succ.inj heq)

def Scopes.env (d : Scopes V) (inherited : Bindings V) (path : List PointId) : Bindings V :=
  path.filterMap d.binding ++ inherited

def Scopes.windingAt (d : Scopes V) (base : TaskId → Bindings V) (x : PointId) : Option (Winding V) :=
  (d.task x).bind fun i => (d.binding x).map fun b =>
    ⟨i, b :: d.env (base i) (d.path x).tail, d.env (base i) (d.path x).tail⟩

/-- The thunks of a point: those of `dynamic-wind`, or those of a root. -/
def Thunks (e : Extents) (binding : Option (LocalId × V)) (x : PointId) : Prop :=
  (e.before x = .user (2 * x) ∧ e.after x = .user (2 * x + 1)) ∨
    (e.before x = .user 0 ∧ e.after x = .user 0 ∧ binding = none)

structure Sim (s : World V) (e : Extents) (d : Scopes V) (base : TaskId → Bindings V) : Prop where
  spaces : Represents s.spaces e
  user : ∀ x, (e.before x).IsUser ∧ (e.after x).IsUser
  path : d.path = e.path
  pointCount : d.pointCount = e.pointCount
  pos : 0 < e.pointCount
  taskCount : s.taskCount = d.taskCount
  spaceCount : e.spaceCount = d.taskCount + 1
  current : ∀ i < d.taskCount, d.current i = e.current (spaceOf i)
  task : ∀ x < e.pointCount, ∀ i, d.task x = some i ↔ e.space x = spaceOf i
  task_zero : d.task 0 = none
  pointSpace : ∀ x < e.pointCount, s.pointSpace x = e.space x
  space : ∀ i < d.taskCount, s.space i = spaceOf i
  thunks : ∀ x < e.pointCount, Thunks e (d.binding x) x
  windings : ∀ x < e.pointCount, s.windings x = d.windingAt base x
  locals : ∀ i < d.taskCount, s.locals i = d.env (base i) (d.path (d.current i))
  inherited : ∀ i < d.taskCount, ∀ key, lookup (base i) key = d.inherited i key

theorem Sim.paths (h : Sim s e d base) : Paths d.path (· < d.pointCount) := by
  rw [h.path, h.pointCount]
  exact h.spaces.paths

theorem Sim.space_lt (h : Sim s e d base) (hi : i < d.taskCount) : spaceOf i < e.spaceCount := by
  rw [h.spaceCount]
  exact Nat.succ_lt_succ hi

theorem Sim.current_lt (h : Sim s e d base) (hi : i < d.taskCount) : d.current i < d.pointCount := by
  rw [h.current i hi, h.pointCount]
  exact (h.spaces.current _ (h.space_lt hi)).1

theorem Sim.space_current (h : Sim s e d base) (hi : i < d.taskCount) :
    e.space (d.current i) = spaceOf i := by
  rw [h.current i hi]
  exact (h.spaces.current _ (h.space_lt hi)).2

/-! ## Reading -/

theorem lookup_append (l l' : Bindings V) (key : LocalId) :
    lookup (l ++ l') key = (lookup l key).or (lookup l' key) := by
  rw [lookup, lookup, lookup, List.find?_append]
  cases l.find? (·.1 = key) <;> rfl

theorem lookup_filterMap (d : Scopes V) (key) (path : List PointId) :
    lookup (path.filterMap d.binding) key = path.findSome? (d.bound key) := by
  induction path with
  | nil => rfl
  | cons x path ih =>
    rw [List.findSome?_cons, Scopes.bound]
    cases hb : d.binding x with
    | none =>
      rw [List.filterMap_cons_none hb]
      exact ih
    | some b =>
      rw [List.filterMap_cons_some hb, lookup, List.find?_cons]
      by_cases hkey : b.1 = key
      · simp [hkey]
      · simp only [hkey, decide_false, Option.bind_some, if_false]
        exact ih

theorem Sim.lookup (h : Sim s e d base) (hi : i < d.taskCount) (key : LocalId) :
    lookup (s.locals i) key = d.value i key := by
  rw [h.locals i hi, Scopes.env, lookup_append, lookup_filterMap, h.inherited i hi, Scopes.value]

/-! ## Moves -/

theorem call_fields (thunks : List Thunk) : ∀ s : World V,
    (thunks.foldl World.call s).spaces = s.spaces ∧
    (thunks.foldl World.call s).pointSpace = s.pointSpace ∧
    (thunks.foldl World.call s).windings = s.windings ∧
    (thunks.foldl World.call s).parent = s.parent ∧
    (thunks.foldl World.call s).taskCount = s.taskCount ∧
    (thunks.foldl World.call s).space = s.space := by
  induction thunks with
  | nil => exact fun s => ⟨rfl, rfl, rfl, rfl, rfl, rfl⟩
  | cons thunk thunks ih =>
    intro s
    have hcall : (s.call thunk).spaces = s.spaces ∧ (s.call thunk).pointSpace = s.pointSpace ∧
        (s.call thunk).windings = s.windings ∧ (s.call thunk).parent = s.parent ∧
        (s.call thunk).taskCount = s.taskCount ∧ (s.call thunk).space = s.space := by
      cases thunk with
      | user code =>
        rw [World.call]
        cases s.windings (code / 2) <;> exact ⟨rfl, rfl, rfl, rfl, rfl, rfl⟩
      | bound p code => exact ⟨rfl, rfl, rfl, rfl, rfl, rfl⟩
    obtain ⟨h1, h2, h3, h4, h5, h6⟩ := ih (s.call thunk)
    obtain ⟨g1, g2, g3, g4, g5, g6⟩ := hcall
    exact ⟨h1.trans g1, h2.trans g2, h3.trans g3, h4.trans g4, h5.trans g5, h6.trans g6⟩

/-- The field of task `i` is the list of the point `x`, and the others are as in `s`. -/
structure At (s : World V) (d : Scopes V) (base : TaskId → Bindings V) (i : TaskId) (s' : World V)
    (x : PointId) : Prop where
  task : d.task x = some i
  windings : s'.windings = s.windings
  locals : s'.locals i = d.env (base i) (d.path x)
  others : ∀ j, j ≠ i → s'.locals j = s.locals j

theorem Sim.windings_zero (h : Sim s e d base) : s.windings 0 = none := by
  rw [h.windings 0 h.pos, Scopes.windingAt, h.task_zero]
  rfl

theorem Sim.call_at (h : Sim s e d base) (hx : x < e.pointCount) (htask : d.task x = some i)
    (hs : s'.windings = s.windings) {code : Nat} (hcode : code / 2 = x) :
    s'.call (.user code) = match d.binding x with
      | none => s'
      | some b => { s' with
          locals := update s'.locals i (if code % 2 = 0 then
            b :: d.env (base i) (d.path x).tail else d.env (base i) (d.path x).tail) } := by
  rw [World.call, hcode, hs, h.windings x hx, Scopes.windingAt, htask, Option.bind_some]
  cases d.binding x <;> rfl

theorem Sim.call_zero (h : Sim s e d base) (hs : s'.windings = s.windings) :
    s'.call (.user 0) = s' := by
  rw [World.call, hs, Nat.zero_div, h.windings_zero]

theorem At.set {y : PointId} (h : At s d base i s' x) (hy : d.task y = some i) {l : Bindings V}
    (hl : l = d.env (base i) (d.path y)) :
    At s d base i { s' with locals := update s'.locals i l } y where
  task := hy
  windings := h.windings
  locals := (update_self ..).trans hl
  others j hj := (update_of_ne hj ..).trans (h.others j hj)

theorem Sim.leave (h : Sim s e d base) {a : PointId} (hx : x < e.pointCount)
    (hpath : d.path x = x :: d.path a) (htask : d.task a = some i) (hat : At s d base i s' x) :
    At s d base i (s'.call (e.after x)) a := by
  have henv : d.binding x = none → d.env (base i) (d.path x) = d.env (base i) (d.path a) := by
    intro hb
    rw [Scopes.env, hpath, List.filterMap_cons_none hb, Scopes.env]
  have hsame : d.binding x = none → At s d base i s' a := fun hb =>
    ⟨htask, hat.windings, hat.locals.trans (henv hb), hat.others⟩
  rcases h.thunks x hx with ⟨-, hafter⟩ | ⟨-, hafter, hb⟩
  · rw [hafter, h.call_at hx hat.task hat.windings (by omega)]
    cases hb : d.binding x with
    | none => exact hsame hb
    | some b =>
      refine hat.set htask ?_
      rw [if_neg (by omega), hpath, List.tail_cons]
  · rw [hafter, h.call_zero hat.windings]
    exact hsame hb

theorem Sim.enter (h : Sim s e d base) {a : PointId} (hx : x < e.pointCount)
    (hpath : d.path x = x :: d.path a) (htask : d.task x = some i) (hat : At s d base i s' a) :
    At s d base i (s'.call (e.before x)) x := by
  have henv : d.binding x = none → d.env (base i) (d.path x) = d.env (base i) (d.path a) := by
    intro hb
    rw [Scopes.env, hpath, List.filterMap_cons_none hb, Scopes.env]
  have hsame : d.binding x = none → At s d base i s' x := fun hb =>
    ⟨htask, hat.windings, hat.locals.trans (henv hb).symm, hat.others⟩
  rcases h.thunks x hx with ⟨hbefore, -⟩ | ⟨hbefore, -, hb⟩
  · rw [hbefore, h.call_at hx htask hat.windings (by omega)]
    cases hb : d.binding x with
    | none => exact hsame hb
    | some b =>
      refine hat.set htask ?_
      rw [if_pos (by omega), hpath, List.tail_cons, Scopes.env, Scopes.env,
        List.filterMap_cons_some hb, List.cons_append]
  · rw [hbefore, h.call_zero hat.windings]
    exact hsame hb

theorem Sim.windingsTo (h : Sim s e d base) (hi : i < d.taskCount) (hq : q < d.pointCount)
    (htask : d.task q = some i) (spaces space) :
    At s d base i ((e.windings (d.current i) q).foldl World.call { s with spaces, space }) q := by
  have hcur := h.current_lt hi
  have hlt : ∀ {y}, y < d.pointCount → y < e.pointCount := fun hy => h.pointCount ▸ hy
  have hspaceq : e.space q = spaceOf i := (h.task q (hlt hq) i).mp htask
  have htaskCur : d.task (d.current i) = some i :=
    (h.task _ (hlt hcur) i).mpr (h.space_current hi)
  obtain ⟨t, ht⟩ := h.spaces.top (spaceOf i)
  have htaskMem : ∀ {y a}, y < d.pointCount → a ∈ d.path y → (d.task y = some i ↔ d.task a = some i) := by
    intro y a hy ha
    have halt := h.paths.closed y hy a ha
    rw [h.task y (hlt hy), h.task a (hlt halt)]
    rw [h.path] at ha
    rw [h.spaces.space y (hlt hy) a ha]
  rw [Extents.windings, ← h.path, List.foldl_append, List.foldl_map, List.foldl_map]
  refine h.paths.move ?_ ?_ hcur hq (h.path ▸ ht _ (hlt hcur) (h.space_current hi))
    (h.path ▸ ht q (hlt hq) hspaceq) ⟨htaskCur, rfl, h.locals i hi, fun _ _ => rfl⟩
  · intro s' r a hr ha hpath hat
    have hmem : a ∈ d.path r := by
      obtain ⟨u, hu⟩ := h.paths.self a ha
      rw [hpath, hu]
      simp
    exact h.leave (hlt hr) hpath ((htaskMem hr hmem).mp hat.task) hat
  · intro s' y r hy hr hpath hat
    have hmem : r ∈ d.path y := by
      obtain ⟨u, hu⟩ := h.paths.self r hr
      rw [hpath, hu]
      simp
    exact h.enter (hlt hy) hpath ((htaskMem hy hmem).mpr hat.task) hat

theorem call_eq_callUser {thunk : Thunk} (h : thunk.IsUser) (e) :
    Extents.call thunk e = Extents.callUser thunk e := by
  cases thunk with
  | user code => rfl
  | bound p code => exact h.elim

theorem foldl_leave_call (space : SpaceId) {l : List PointId} : ∀ {e : Extents},
    (∀ x, (e.after x).IsUser) →
    l.foldl (Extents.leave Extents.call space) e = l.foldl (Extents.leave Extents.callUser space) e := by
  induction l with
  | nil => exact fun _ => rfl
  | cons x l ih =>
    intro e h
    have hleave : e.leave Extents.call space x = e.leave Extents.callUser space x :=
      call_eq_callUser (h x) _
    rw [List.foldl_cons, List.foldl_cons, hleave]
    refine ih ?_
    rw [(sameTree_leave (calls_callUser space) e x).after]
    exact h

theorem foldl_enter_call (space : SpaceId) {l : List PointId} : ∀ {e : Extents},
    (∀ x, (e.before x).IsUser) →
    l.foldl (Extents.enter Extents.call space) e = l.foldl (Extents.enter Extents.callUser space) e := by
  induction l with
  | nil => exact fun _ => rfl
  | cons x l ih =>
    intro e h
    have henter : e.enter Extents.call space x = e.enter Extents.callUser space x :=
      call_eq_callUser (h x) _
    rw [List.foldl_cons, List.foldl_cons, henter]
    refine ih ?_
    rw [(sameTree_enter (calls_callUser space) e x).before]
    exact h

theorem move_current (h : ∀ x, (e.before x).IsUser ∧ (e.after x).IsUser) {space : SpaceId}
    (hspace : space ≠ e.space q) : (e.move Extents.call q).current space = e.current space := by
  have hmove : e.move Extents.call q = e.move Extents.callUser q := by
    rw [Extents.move, Extents.move, foldl_leave_call _ fun x => (h x).2]
    refine foldl_enter_call _ ?_
    rw [(sameTree_foldl (sameTree_leave (calls_callUser _))).before]
    exact fun x => (h x).1
  rw [hmove]
  exact (apart_move hspace).current

theorem Sim.translate (h : Sim s e d base) (hi : i < d.taskCount) (hq : q < d.pointCount)
    (htask : d.task q = some i) :
    ∃ s' e', s.translate i q = some s' ∧
      Sim s' e' { d with current := update d.current i q } base ∧
      ∀ j, j ≠ i → s'.locals j = s.locals j := by
  have hqe : q < e.pointCount := h.pointCount ▸ hq
  have hspace : e.space q = spaceOf i := (h.task q hqe i).mp htask
  have hpoint : s.pointSpace q = spaceOf i := (h.pointSpace q hqe).trans hspace
  obtain ⟨spaces, hok, hrep, hcur, hsame⟩ := h.spaces.translate hqe
  obtain ⟨new, hnew, hcalls⟩ :=
    log_move h.spaces.toTree hqe (calls_call _) (h.spaces.windingsIn _)
  rw [hspace, ← h.current i hi] at hcalls
  have hdrop : (spaces.log.drop s.spaces.log.length).filterMap (callsOf (spaceOf i)) =
      e.windings (d.current i) q := by
    rw [hrep.log, hnew, h.spaces.log, List.drop_left, hcalls]
  have hat := h.windingsTo hi hq htask spaces (update s.space i (spaceOf i))
  obtain ⟨hspaces, hpointSpace, hwindings, -, hcount, hcode⟩ :=
    call_fields (e.windings (d.current i) q)
      ({ s with spaces, space := update s.space i (spaceOf i) } : World V)
  refine ⟨_, e.move Extents.call q, by rw [World.translate, hok, hpoint]; rfl, ?_, ?_⟩
  · show Sim (List.foldl World.call _ ((spaces.log.drop s.spaces.log.length).filterMap _)) _ _ _
    rw [hdrop]
    refine ⟨?_, ?_, ?_, ?_, ?_, hcount.trans h.taskCount, ?_, ?_, ?_, h.task_zero, ?_, ?_, ?_, ?_, ?_,
      h.inherited⟩
    · rw [hspaces]
      exact hrep
    · rw [hsame.before, hsame.after]
      exact h.user
    · rw [hsame.path]
      exact h.path
    · rw [hsame.pointCount]
      exact h.pointCount
    · rw [hsame.pointCount]
      exact h.pos
    · rw [hsame.spaceCount]
      exact h.spaceCount
    · intro j hj
      show update d.current i q j = _
      by_cases hji : j = i
      · subst hji
        rw [update_self, ← hspace, hcur]
      · rw [update_of_ne hji, move_current h.user, h.current j hj]
        rw [hspace]
        exact spaceOf_ne hji
    · rw [hsame.pointCount, hsame.space]
      exact h.task
    · rw [hsame.pointCount, hsame.space, hpointSpace]
      exact h.pointSpace
    · intro j hj
      rw [hcode]
      show update s.space i _ j = _
      by_cases hji : j = i
      · subst hji
        rw [update_self]
      · rw [update_of_ne hji]
        exact h.space j hj
    · intro x hx
      rw [hsame.pointCount] at hx
      rw [Thunks, hsame.before, hsame.after]
      exact h.thunks x hx
    · intro x hx
      rw [hsame.pointCount] at hx
      rw [hwindings]
      exact h.windings x hx
    · intro j hj
      show _ = d.env (base j) (d.path (update d.current i q j))
      by_cases hji : j = i
      · subst hji
        rw [update_self]
        exact hat.locals
      · rw [update_of_ne hji, hat.others j hji]
        exact h.locals j hj
  · intro j hji
    show (List.foldl World.call _ ((spaces.log.drop s.spaces.log.length).filterMap _)).locals j = _
    rw [hdrop]
    exact hat.others j hji

/-! ## New points -/

/-- The scopes with a new point of task `k`, which binds `b`, inside those of `tail`. -/
structure Grown (d : Scopes V) (k : TaskId) (b : Option (LocalId × V)) (tail : List PointId)
    (d' : Scopes V) : Prop where
  path : d'.path = update d.path d.pointCount (d.pointCount :: tail)
  pointCount : d'.pointCount = d.pointCount + 1
  task : d'.task = update d.task d.pointCount (some k)
  binding : d'.binding = update d.binding d.pointCount b
  current : d'.current = update d.current k d.pointCount

structure GrownTo (e : Extents) (i : SpaceId) (before after : Thunk) (tail : List PointId)
    (e' : Extents) : Prop where
  path : e'.path = update e.path e.pointCount (e.pointCount :: tail)
  before : e'.before = update e.before e.pointCount before
  after : e'.after = update e.after e.pointCount after
  space : e'.space = update e.space e.pointCount i
  pointCount : e'.pointCount = e.pointCount + 1
  current : e'.current = update e.current i e.pointCount

section Grow

variable {k : TaskId} {b : Option (LocalId × V)} {tail : List PointId}
  {before after : Thunk} {base' : TaskId → Bindings V}

section
variable (hg : Grown d k b tail d')
include hg

theorem Grown.env {path : List PointId} (hpath : ∀ y ∈ path, y < d.pointCount) (l) :
    d'.env l path = d.env l path := by
  rw [Scopes.env, Scopes.env, hg.binding]
  congr 1
  refine List.filterMap_congr fun y hy => ?_
  rw [update_of_ne (Nat.ne_of_lt (hpath y hy))]

theorem Grown.env_new (htail : ∀ y ∈ tail, y < d.pointCount) (l) :
    d'.env l (d.pointCount :: tail) = b.toList ++ d.env l tail := by
  have hnew : d'.binding d.pointCount = b := by rw [hg.binding, update_self]
  rw [← hg.env htail, Scopes.env, Scopes.env]
  cases b with
  | none => rw [List.filterMap_cons_none hnew]; rfl
  | some b => rw [List.filterMap_cons_some hnew]; rfl

theorem Grown.path_old (hx : x < d.pointCount) : d'.path x = d.path x := by
  rw [hg.path, update_of_ne (Nat.ne_of_lt hx)]

theorem Grown.path_new : d'.path d.pointCount = d.pointCount :: tail := by
  rw [hg.path, update_self]

theorem Grown.windingAt_old (hpaths : Paths d.path (· < d.pointCount)) (hx : x < d.pointCount)
    (hbase : ∀ j, d.task x = some j → base' j = base j) :
    d'.windingAt base' x = d.windingAt base x := by
  have hclosed : ∀ y ∈ (d.path x).tail, y < d.pointCount := fun y hy =>
    hpaths.closed x hx y (List.mem_of_mem_tail hy)
  have hne := Nat.ne_of_lt hx
  rw [Scopes.windingAt, Scopes.windingAt, hg.task, hg.binding, update_of_ne hne,
    update_of_ne hne, hg.path_old hx]
  cases htask : d.task x with
  | none => rfl
  | some j => simp only [Option.bind_some, hg.env hclosed, hbase j htask]

theorem Grown.windingAt_new (htail : ∀ y ∈ tail, y < d.pointCount) :
    d'.windingAt base' d.pointCount =
      b.map fun b => ⟨k, b :: d.env (base' k) tail, d.env (base' k) tail⟩ := by
  rw [Scopes.windingAt, hg.task, hg.binding, update_self, update_self, hg.path_new,
    Option.bind_some, List.tail_cons, hg.env htail]

end

theorem Sim.grow (h : Sim s e d base) (hg : Grown d k b tail d')
    (he : GrownTo e (spaceOf k) before after tail e') (hrep : Represents s'.spaces e')
    (htail : ∀ y ∈ tail, y < d.pointCount)
    (huser : before.IsUser ∧ after.IsUser)
    (hthunks : (before = .user (2 * e.pointCount) ∧ after = .user (2 * e.pointCount + 1)) ∨
      (before = .user 0 ∧ after = .user 0 ∧ b = none))
    (hpointSpace : s'.pointSpace = update s.pointSpace e.pointCount (spaceOf k))
    (hwindings : s'.windings = update s.windings e.pointCount
      (b.map fun b => ⟨k, b :: d.env (base' k) tail, d.env (base' k) tail⟩))
    (hcount : s'.taskCount = d'.taskCount) (hspaceCount : e'.spaceCount = d'.taskCount + 1)
    (hold : ∀ j < d'.taskCount, j ≠ k → j < d.taskCount ∧ s'.locals j = s.locals j ∧
      s'.space j = s.space j)
    (hspace : s'.space k = spaceOf k)
    (hbase : ∀ j < d.taskCount, base' j = base j)
    (hlocals : s'.locals k = b.toList ++ d.env (base' k) tail)
    (hinherited : ∀ j < d'.taskCount, ∀ key, TaskLocals.lookup (base' j) key = d'.inherited j key) :
    Sim s' e' d' base' := by
  have hn := h.pointCount
  have hcases : ∀ x < e'.pointCount, x < e.pointCount ∨ x = e.pointCount := by
    rw [he.pointCount]
    exact fun x hx => Nat.lt_or_eq_of_le (Nat.le_of_lt_succ hx)
  have hbaseTask : ∀ x < e.pointCount, ∀ j, d.task x = some j → base' j = base j := by
    intro x hx j hj
    have hlt := h.spaces.space_lt x hx
    rw [(h.task x hx j).mp hj, h.spaceCount] at hlt
    exact hbase j (Nat.lt_of_succ_lt_succ hlt)
  refine ⟨hrep, ?_, ?_, ?_, ?_, hcount, hspaceCount, ?_, ?_, ?_, ?_, ?_, ?_, ?_, ?_, hinherited⟩
  · intro x
    rw [he.before, he.after]
    by_cases hx : x = e.pointCount
    · rw [hx, update_self, update_self]
      exact huser
    · rw [update_of_ne hx, update_of_ne hx]
      exact h.user x
  · rw [hg.path, he.path, h.path, hn]
  · rw [hg.pointCount, he.pointCount, hn]
  · rw [he.pointCount]
    exact Nat.succ_pos _
  · intro j hj
    rw [hg.current, he.current]
    by_cases hjk : j = k
    · rw [hjk, update_self, update_self, hn]
    · rw [update_of_ne hjk, update_of_ne (spaceOf_ne hjk)]
      exact h.current j (hold j hj hjk).1
  · intro x hx j
    rw [hg.task, he.space, hn]
    rcases hcases x hx with hlt | rfl
    · rw [update_of_ne (Nat.ne_of_lt hlt), update_of_ne (Nat.ne_of_lt hlt)]
      exact h.task x hlt j
    · rw [update_self, update_self, Option.some_inj]
      exact ⟨fun heq => heq ▸ rfl, fun heq => Nat.succ.inj heq⟩
  · rw [hg.task, hn, update_of_ne (Nat.ne_of_lt h.pos)]
    exact h.task_zero
  · intro x hx
    rw [hpointSpace, he.space]
    rcases hcases x hx with hlt | rfl
    · rw [update_of_ne (Nat.ne_of_lt hlt), update_of_ne (Nat.ne_of_lt hlt)]
      exact h.pointSpace x hlt
    · rw [update_self, update_self]
  · intro j hj
    by_cases hjk : j = k
    · exact hjk ▸ hspace
    · obtain ⟨hlt, -, hcode⟩ := hold j hj hjk
      exact hcode.trans (h.space j hlt)
  · intro x hx
    rw [Thunks, he.before, he.after, hg.binding, hn]
    rcases hcases x hx with hlt | rfl
    · rw [update_of_ne (Nat.ne_of_lt hlt), update_of_ne (Nat.ne_of_lt hlt),
        update_of_ne (Nat.ne_of_lt hlt)]
      exact h.thunks x hlt
    · rw [update_self, update_self, update_self]
      exact hthunks
  · intro x hx
    rw [hwindings]
    rcases hcases x hx with hlt | rfl
    · rw [update_of_ne (Nat.ne_of_lt hlt), h.windings x hlt]
      exact (hg.windingAt_old h.paths (hn.symm ▸ hlt) (hbaseTask x hlt)).symm
    · rw [update_self, ← hn, hg.windingAt_new htail]
  · intro j hj
    rw [hg.current]
    by_cases hjk : j = k
    · rw [hjk, update_self, hg.path_new, hlocals, hg.env_new htail]
    · obtain ⟨hlt, hl, -⟩ := hold j hj hjk
      have hcur := h.current_lt hlt
      have hbasej := hbase j hlt
      rw [update_of_ne hjk, hg.path_old hcur, hg.env (h.paths.closed _ hcur), hl, hbasej]
      exact h.locals j hlt

end Grow

theorem call_of_none {code : Nat} (h : s.windings (code / 2) = none) : s.call (.user code) = s := by
  rw [World.call, h]

theorem call_of_some {code : Nat} {w : Winding V} (h : s.windings (code / 2) = some w) :
    s.call (.user code) =
      { s with locals := update s.locals w.task (if code % 2 = 0 then w.inner else w.outer) } := by
  rw [World.call, h]

theorem dynamicWind_eq {spaces : Spaces} (b : Option (LocalId × V))
    (hok : s.spaces.executeAtNewStatePoint (s.space i) (.user (2 * s.spaces.pointCount))
      (.user (2 * s.spaces.pointCount + 1)) = .ok spaces)
    (hdrop : (spaces.log.drop s.spaces.log.length).filterMap (callsOf (s.space i)) =
      [.user (2 * s.spaces.pointCount)]) :
    ∃ s', s.dynamicWind i (b.map fun b => ⟨i, b :: s.locals i, s.locals i⟩) = some s' ∧
      s'.spaces = spaces ∧
      s'.pointSpace = update s.pointSpace s.spaces.pointCount (s.space i) ∧
      s'.windings = update s.windings s.spaces.pointCount
        (b.map fun b => ⟨i, b :: s.locals i, s.locals i⟩) ∧
      s'.taskCount = s.taskCount ∧ s'.space = s.space ∧ s'.locals i = b.toList ++ s.locals i ∧
      ∀ j, j ≠ i → s'.locals j = s.locals j := by
  have hhalf : 2 * s.spaces.pointCount / 2 = s.spaces.pointCount :=
    Nat.mul_div_cancel_left _ Nat.zero_lt_two
  have heven : 2 * s.spaces.pointCount % 2 = 0 := Nat.mul_mod_right ..
  cases b with
  | none =>
    refine ⟨_, by rw [World.dynamicWind, hok]; rfl, ?_⟩
    rw [hdrop, List.foldl_cons, List.foldl_nil, call_of_none]
    · exact ⟨rfl, rfl, rfl, rfl, rfl, rfl, fun _ _ => rfl⟩
    · rw [hhalf]
      exact update_self ..
  | some b =>
    refine ⟨_, by rw [World.dynamicWind, hok]; rfl, ?_⟩
    rw [hdrop, List.foldl_cons, List.foldl_nil,
      call_of_some (w := ⟨i, b :: s.locals i, s.locals i⟩)]
    · refine ⟨rfl, rfl, rfl, rfl, rfl, ?_, fun j hj => ?_⟩
      · exact (update_self ..).trans (if_pos heven)
      · exact update_of_ne hj ..
    · rw [hhalf]
      exact update_self ..

theorem Sim.extend (h : Sim s e d base) (hi : i < d.taskCount) (b : Option (LocalId × V)) :
    ∃ s' e', s.dynamicWind i (b.map fun b => ⟨i, b :: s.locals i, s.locals i⟩) = some s' ∧
      Sim s' e' (d.extend i b) base ∧ ∀ j, j ≠ i → s'.locals j = s.locals j := by
  have hspace := h.space i hi
  have hcount : s.spaces.pointCount = e.pointCount := h.spaces.pointCount
  have hlocals := h.locals i hi
  obtain ⟨spaces, hok, hrep, hspaces⟩ := h.spaces.execute (h.space_lt hi)
    (winding_user (spaceOf i) e (2 * e.pointCount)) (winding_user (spaceOf i) e (2 * e.pointCount + 1))
  have hdrop : (spaces.log.drop s.spaces.log.length).filterMap (callsOf (spaceOf i)) =
      [.user (2 * e.pointCount)] := by
    have hlog : spaces.log = e.log ++ [.call (spaceOf i) (.user (2 * e.pointCount)),
        .code (2 * e.pointCount)] := by
      rw [hrep.log]
      exact List.append_assoc ..
    rw [hlog, h.spaces.log, List.drop_left]
    simp [callsOf]
  have hgrown : Grown d i b (d.path (d.current i)) (d.extend i b) := ⟨rfl, rfl, rfl, rfl, rfl⟩
  have hgrownTo : GrownTo e (spaceOf i) (.user (2 * e.pointCount)) (.user (2 * e.pointCount + 1))
      (d.path (d.current i)) (e.execute (spaceOf i) (.user (2 * e.pointCount))
        (.user (2 * e.pointCount + 1))) := by
    refine ⟨?_, rfl, rfl, rfl, rfl, rfl⟩
    rw [h.path, h.current i hi]
    rfl
  rw [← hspace, ← hcount] at hok hdrop
  obtain ⟨s', hs', hspaces', hpoint, hwindings, htasks, hcode, hself, hothers⟩ :=
    dynamicWind_eq b hok hdrop
  rw [hcount, hspace] at hpoint
  rw [hcount, hlocals] at hwindings
  rw [hlocals] at hself
  refine ⟨s', e.execute (spaceOf i) (.user (2 * e.pointCount)) (.user (2 * e.pointCount + 1)), hs', ?_,
    hothers⟩
  refine h.grow hgrown hgrownTo (hspaces'.symm ▸ hrep) (h.paths.closed _ (h.current_lt hi))
    ⟨trivial, trivial⟩ (.inl ⟨rfl, rfl⟩) hpoint hwindings (htasks.trans h.taskCount)
    (hspaces.trans h.spaceCount) ?_ ?_ (fun _ _ => rfl) hself h.inherited
  · exact fun j hj hji => ⟨hj, hothers j hji, congrFun hcode j⟩
  · rw [hcode, hspace]

theorem Sim.newTask (h : Sim s e d base) {locals : Bindings V} {inherited : LocalId → Option V}
    (hlocals : ∀ key, TaskLocals.lookup locals key = inherited key) (parent) :
    ∃ e', Sim (s.newTask locals parent) e' (d.newTask inherited)
      (update base d.taskCount locals) := by
  have hcount : s.spaces.pointCount = e.pointCount := h.spaces.pointCount
  have hspaceCount : s.spaces.spaceCount = spaceOf d.taskCount :=
    h.spaces.spaceCount.trans h.spaceCount
  have hgrown : Grown d d.taskCount none [] (d.newTask inherited) := ⟨rfl, rfl, rfl, rfl, rfl⟩
  have hgrownTo : GrownTo e (spaceOf d.taskCount) (.user 0) (.user 0) [] e.makeStateSpace := by
    refine ⟨rfl, rfl, rfl, ?_, rfl, ?_⟩
    · rw [spaceOf, ← h.spaceCount]
      rfl
    · rw [spaceOf, ← h.spaceCount]
      rfl
  refine ⟨_, h.grow hgrown hgrownTo h.spaces.makeStateSpace nofun ⟨trivial, trivial⟩
    (.inr ⟨rfl, rfl, rfl⟩) ?_ ?_ ?_ ?_ ?_ ?_ ?_ ?_ ?_⟩
  · show update s.pointSpace s.spaces.pointCount s.spaces.spaceCount = _
    rw [hcount, hspaceCount]
  · show update s.windings s.spaces.pointCount none = _
    rw [hcount]
    rfl
  · exact congrArg (· + 1) h.taskCount
  · exact congrArg (· + 1) h.spaceCount
  · intro j hj hne
    show j < d.taskCount ∧ update s.locals s.taskCount locals j = _ ∧
      update s.space s.taskCount _ j = _
    rw [h.taskCount, update_of_ne hne, update_of_ne hne]
    exact ⟨(Nat.lt_or_eq_of_le (Nat.le_of_lt_succ hj)).resolve_right hne, rfl, rfl⟩
  · show update s.space s.taskCount s.spaces.spaceCount d.taskCount = _
    rw [h.taskCount, update_self, hspaceCount]
  · exact fun j hj => update_of_ne (Nat.ne_of_lt hj) ..
  · show update s.locals s.taskCount locals d.taskCount = _
    rw [h.taskCount, update_self, update_self]
    rfl
  · intro j hj key
    show TaskLocals.lookup _ key = update d.inherited d.taskCount inherited j key
    by_cases hjn : j = d.taskCount
    · rw [hjn, update_self, update_self]
      exact hlocals key
    · rw [update_of_ne hjn, update_of_ne hjn]
      exact h.inherited j ((Nat.lt_or_eq_of_le (Nat.le_of_lt_succ hj)).resolve_right hjn) key

/-! ## Runs -/

/-- The list of a point that exists does not change. -/
structure Keeps (d : Scopes V) (base : TaskId → Bindings V) (d' : Scopes V)
    (base' : TaskId → Bindings V) : Prop where
  taskCount : d.taskCount ≤ d'.taskCount
  pointCount : d.pointCount ≤ d'.pointCount
  env : ∀ j < d.taskCount, ∀ y < d.pointCount,
    d'.env (base' j) (d'.path y) = d.env (base j) (d.path y)

theorem Keeps.refl (d : Scopes V) (base : TaskId → Bindings V) : Keeps d base d base :=
  ⟨Nat.le_refl _, Nat.le_refl _, fun _ _ _ _ => rfl⟩

theorem Keeps.trans {d'' : Scopes V} {base' base'' : TaskId → Bindings V} (h : Keeps d base d' base')
    (h' : Keeps d' base' d'' base'') : Keeps d base d'' base'' := by
  refine ⟨Nat.le_trans h.taskCount h'.taskCount, Nat.le_trans h.pointCount h'.pointCount, ?_⟩
  intro j hj y hy
  rw [h'.env j (Nat.lt_of_lt_of_le hj h.taskCount) y (Nat.lt_of_lt_of_le hy h.pointCount)]
  exact h.env j hj y hy

theorem Grown.keeps {k : TaskId} {b : Option (LocalId × V)} {tail : List PointId}
    {base' : TaskId → Bindings V} (hg : Grown d k b tail d')
    (hpaths : Paths d.path (· < d.pointCount)) (hcount : d.taskCount ≤ d'.taskCount)
    (hbase : ∀ j < d.taskCount, base' j = base j) : Keeps d base d' base' := by
  refine ⟨hcount, hg.pointCount ▸ Nat.le_succ _, ?_⟩
  intro j hj y hy
  rw [hbase j hj, hg.path_old hy, hg.env (hpaths.closed y hy)]

theorem Sim.step (h : Sim s e d base) {action : Action V} (hstep : d.step action = some d') :
    ∃ s' e' base', s.step action = some s' ∧ Sim s' e' d' base' ∧ Keeps d base d' base' ∧
      ∀ j < d.taskCount, j ≠ action.task → s'.locals j = s.locals j := by
  unfold Scopes.step at hstep
  split at hstep
  case isFalse => cases hstep
  case isTrue hi =>
    have hguard : action.task < s.taskCount := h.taskCount ▸ hi
    unfold World.step
    rw [if_pos hguard]
    have hnew : ∀ {locals : Bindings V} {inherited : LocalId → Option V} (parent : Option TaskId),
        (∀ key, TaskLocals.lookup locals key = inherited key) →
        ∃ s' e' base', some (s.newTask locals parent) = some s' ∧
          Sim s' e' (d.newTask inherited) base' ∧ Keeps d base (d.newTask inherited) base' ∧
          ∀ j < d.taskCount, j ≠ action.task → s'.locals j = s.locals j := by
      intro locals inherited parent hlocals
      obtain ⟨e', h'⟩ := h.newTask hlocals parent
      have hgrown : Grown d d.taskCount none [] (d.newTask inherited) := ⟨rfl, rfl, rfl, rfl, rfl⟩
      refine ⟨_, e', _, rfl, h', hgrown.keeps h.paths (Nat.le_succ _) ?_, fun j hj _ => ?_⟩
      · exact fun j hj => update_of_ne (Nat.ne_of_lt hj) ..
      · exact update_of_ne (h.taskCount ▸ Nat.ne_of_lt hj) ..
    have hextend : ∀ b : Option (LocalId × V), ∃ s' e' base',
        s.dynamicWind action.task
          (b.map fun b => ⟨action.task, b :: s.locals action.task, s.locals action.task⟩) = some s' ∧
        Sim s' e' (d.extend action.task b) base' ∧ Keeps d base (d.extend action.task b) base' ∧
        ∀ j < d.taskCount, j ≠ action.task → s'.locals j = s.locals j := by
      intro b
      obtain ⟨s', e', hs', h', hothers⟩ := h.extend hi b
      have hgrown : Grown d action.task b (d.path (d.current action.task)) (d.extend action.task b) :=
        ⟨rfl, rfl, rfl, rfl, rfl⟩
      exact ⟨s', e', base, hs', h', hgrown.keeps h.paths (Nat.le_refl _) fun _ _ => rfl,
        fun j _ => hothers j⟩
    cases action with
    | withTaskLocal i key value =>
      cases hstep
      exact hextend (some (key, value))
    | dynamicWind i =>
      cases hstep
      exact hextend none
    | translate i point =>
      obtain ⟨hpoint, hd'⟩ := Option.ite_none_right_eq_some.mp hstep
      cases hd'
      have hne : point ≠ 0 := by
        rintro rfl
        rw [h.task_zero] at hpoint
        cases hpoint.2
      have hlt : point < s.spaces.pointCount := by
        rw [h.spaces.pointCount, ← h.pointCount]
        exact hpoint.1
      obtain ⟨s', e', hs', h', hothers⟩ := h.translate hi hpoint.1 hpoint.2
      refine ⟨s', e', base, ?_, h', ⟨Nat.le_refl _, Nat.le_refl _, fun _ _ _ _ => rfl⟩,
        fun j _ => hothers j⟩
      exact (if_pos ⟨hlt, hne⟩).trans hs'
    | spawnTask i =>
      cases hstep
      exact hnew none (h.lookup hi)
    | spawnDetachedTask i =>
      cases hstep
      exact hnew none fun _ => rfl
    | taskGroupAdd i owner =>
      cases hstep
      exact hnew (some owner) (h.lookup hi)

theorem Sim.runs {actions : List (Action V)} : ∀ {s : World V} {e : Extents} {d : Scopes V}
    {base : TaskId → Bindings V}, Sim s e d base → run Scopes.step d actions = some d' →
    ∃ s' e' base', run World.step s actions = some s' ∧ Sim s' e' d' base' ∧
      Keeps d base d' base' := by
  induction actions with
  | nil =>
    intro s e d base h hrun
    cases hrun
    exact ⟨s, e, base, rfl, h, .refl _ _⟩
  | cons action actions ih =>
    intro s e d base h hrun
    obtain ⟨d1, hd1, hrest⟩ := Option.bind_eq_some_iff.mp hrun
    obtain ⟨s1, e1, base1, hs1, h1, hkeeps1, -⟩ := h.step hd1
    obtain ⟨s', e', base', hs', h', hkeeps⟩ := ih h1 hrest
    refine ⟨s', e', base', ?_, h', hkeeps1.trans hkeeps⟩
    rw [run, hs1]
    exact hs'

theorem sim_start : Sim (World.start : World V) Extents.initial Scopes.start fun _ => [] := by
  have hcases : ∀ x < 2, x = 0 ∨ x = 1 := by decide
  have hthunks : ∀ x, Extents.initial.before x = .user 0 ∧ Extents.initial.after x = .user 0 := by
    intro x
    show update (update (fun _ => Thunk.user 0) 0 (.user 0)) 1 (.user 0) x = _ ∧
      update (update (fun _ => Thunk.user 0) 0 (.user 0)) 1 (.user 0) x = _
    simp [update_apply]
  refine ⟨represents_initial, ?_, rfl, rfl, by decide, rfl, rfl, ?_, ?_, rfl, ?_, ?_, ?_, ?_, ?_, ?_⟩
  · intro x
    rw [(hthunks x).1, (hthunks x).2]
    exact ⟨trivial, trivial⟩
  · intro i hi
    obtain rfl : i = 0 := Nat.lt_one_iff.mp hi
    rfl
  · intro x hx i
    rcases hcases x hx with rfl | rfl
    · exact ⟨nofun, fun heq => absurd heq (Nat.succ_ne_zero i).symm⟩
    · show some 0 = some i ↔ 1 = i + 1
      rw [Option.some_inj]
      exact ⟨fun heq => heq ▸ rfl, fun heq => Nat.succ.inj heq⟩
  · intro x hx
    rcases hcases x hx with rfl | rfl <;> rfl
  · intro i hi
    obtain rfl : i = 0 := Nat.lt_one_iff.mp hi
    rfl
  · exact fun x _ => .inr ⟨(hthunks x).1, (hthunks x).2, rfl⟩
  · intro x hx
    rcases hcases x hx with rfl | rfl <;> rfl
  · intro i hi
    obtain rfl : i = 0 := Nat.lt_one_iff.mp hi
    rfl
  · exact fun _ _ _ => rfl

/-! ## Task-local values -/

/-- What the code computes in a state of the scopes. A task reads the value of the innermost extent
that binds the key, or what it has inherited, or the default; a step of a task leaves the fields of
the others; and whenever a task is back at a point, its field is what it was there. -/
structure Follows (s : World V) (d : Scopes V) : Prop where
  value : ∀ i < d.taskCount, ∀ key default,
    s.taskLocalRef i key default = (d.value i key).getD default
  apart : ∀ action d', d.step action = some d' →
    ∃ s', s.step action = some s' ∧ ∀ j < d.taskCount, j ≠ action.task → s'.locals j = s.locals j
  left : ∀ more d', run Scopes.step d more = some d' → ∀ i < d.taskCount,
    d'.current i = d.current i → ∃ s', run World.step s more = some s' ∧ s'.locals i = s.locals i

theorem Sim.follows (h : Sim s e d base) : Follows s d := by
  refine ⟨fun i hi key default => ?_, fun action d' hstep => ?_, fun more d' hrun i hi hcur => ?_⟩
  · rw [World.taskLocalRef, h.lookup hi]
  · obtain ⟨s', -, -, hs', -, -, hothers⟩ := h.step hstep
    exact ⟨s', hs', hothers⟩
  · obtain ⟨s', e', base', hs', h', hkeeps⟩ := h.runs hrun
    refine ⟨s', hs', ?_⟩
    rw [h'.locals i (Nat.lt_of_lt_of_le hi hkeeps.taskCount), hcur, h.locals i hi]
    exact hkeeps.env i hi _ (h.current_lt hi)

/-- **Task-local values follow the extents of a task.** When each thread only goes to points of its
own, the code reads what the scopes say. -/
theorem task_locals_follow_scopes (actions : List (Action V))
    (hrun : run Scopes.step Scopes.start actions = some d) :
    ∃ s, run World.step World.start actions = some s ∧ Follows s d := by
  obtain ⟨s, e, base, hs, h, -⟩ := sim_start.runs hrun
  exact ⟨s, hs, h.follows⟩

/-- Two tasks are spawned with different values, one by a task that then binds another value, leaves
that extent, and goes back to it. -/
theorem task_locals_follow_scopes_spawned :
    ∃ d : Scopes Nat, run Scopes.step Scopes.start [.withTaskLocal 0 7 70, .spawnTask 0,
        .withTaskLocal 0 7 71, .taskGroupAdd 0 0, .translate 0 1, .withTaskLocal 1 8 80,
        .translate 0 4] = some d ∧
      d.value 0 7 = some 71 ∧ d.value 1 7 = some 70 ∧ d.value 2 7 = some 71 ∧ d.value 2 8 = none ∧
      ∃ s, run World.step World.start [.withTaskLocal 0 7 70, .spawnTask 0,
        .withTaskLocal 0 7 71, .taskGroupAdd 0 0, .translate 0 1, .withTaskLocal 1 8 80,
        .translate 0 4] = some s ∧ Follows s d :=
  ⟨_, rfl, rfl, rfl, rfl, rfl, task_locals_follow_scopes _ rfl⟩

/-- A task that a child adds to a group inherits from the child, and not from the owner of the
group. A task that leaves `with-task-local` through a continuation of another thread keeps the
binding. And a thread that invokes a continuation captured there binds the value in that task. -/
theorem task_locals_across :
    (∃ s : World Nat, run World.step World.start [.taskGroupAdd 0 0, .withTaskLocal 1 0 5] = some s ∧
      s.locals 0 = [] ∧ ∃ s', s.step (.taskGroupAdd 1 0) = some s' ∧ s'.parent 2 = some 0 ∧
        s'.taskLocalRef 2 0 9 = 5) ∧
    (∃ s : World Nat, run World.step World.start [.spawnTask 0] = some s ∧
      s.taskLocalRef 1 0 9 = 9 ∧
      ∃ s', run World.step s [.withTaskLocal 1 0 5, .translate 1 1] = some s' ∧
        s'.space 1 = stateSpaceLocal ∧ s'.taskLocalRef 1 0 9 = 5) ∧
    ∃ s : World Nat, run World.step World.start [.spawnTask 0, .withTaskLocal 1 0 5,
        .translate 1 2] = some s ∧ s.taskLocalRef 1 0 9 = 9 ∧
      ∃ s', s.step (.translate 0 3) = some s' ∧ s'.taskLocalRef 1 0 9 = 5 := by
  refine ⟨⟨_, rfl, rfl, _, rfl, rfl, rfl⟩, ⟨_, rfl, rfl, _, rfl, rfl, rfl⟩, ⟨_, rfl, rfl, _, rfl, rfl⟩⟩

end MitScheme.Runtime.TaskLocals
