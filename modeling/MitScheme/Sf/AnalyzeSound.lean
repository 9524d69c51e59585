import MitScheme.Sf.Analyze
import MitScheme.Sf.Evaluation

/-! # The static analyses are sound

What the six predicates answer holds of every evaluation, by induction on the
evaluation. They are defined on every expression in which no open block ends
in a definition: there the last action is the value marker, and the dispatch
of three of them stops. -/

namespace MitScheme.Sf
open Expression
open List (append_nil mem_cons_self)

/-! ## Answers -/

variable {q : Unit → Answer}

theorem Answer.and_eq_true {p} : Answer.and p q = .ok true ↔ p = .ok true ∧ q () = .ok true := by
  cases p with
  | error f => simp [Answer.and]
  | ok b => cases b <;> simp [Answer.and]

theorem Answer.or_eq_true {p} (h : Answer.or p q = .ok true) : p = .ok true ∨ q () = .ok true := by
  cases p with
  | error f => cases h
  | ok b =>
    cases b with
    | false => exact .inr h
    | true => exact .inl rfl

/-! ## What the answers say of a value and a trace -/

/-- Each answer `#t` is true of the value and the trace. -/
structure Sound (e : Expression) (v : Object) (t : List Effect) : Prop where
  alwaysFalse : alwaysFalseP e = .ok true → v = .sharpF
  neverFalse : neverFalseP e = .ok true → v ≠ .sharpF
  boolean : booleanP e = .ok true → v = .sharpF ∨ v = .sharpT
  effectFree : effectFreeP e = .ok true → t = []
  pureFalse : pureFalseP e = .ok true → t = [] ∧ v = .sharpF
  pureTrue : pureTrueP e = .ok true → t = [] ∧ v = .sharpT

theorem ofBool_boolean (b : Bool) : Object.ofBool b = .sharpF ∨ Object.ofBool b = .sharpT := by
  cases b
  · exact .inl rfl
  · exact .inr rfl

theorem inspect_boolean {p args v} (hp : p ∈ primitiveBooleanPredicates)
    (h : p.inspect args = some v) : v = .sharpF ∨ v = .sharpT := by
  unfold Primitive.inspect at h
  split at h
  all_goals first
    | (cases h; exact ofBool_boolean _)
    | skip
  · split at h
    · cases h
      exact ofBool_boolean _
    · cases h
  · exact absurd hp (by decide)
  · cases h

theorem inspect_not {args v} (h : Primitive.inspect .not args = some v) :
    ∃ x, args = [x] ∧ v = .ofBool (x = .sharpF) := by
  match args, h with
  | [x], h => exact ⟨x, rfl, (Option.some.inj h).symm⟩

theorem callToNotP_iff {p operands} :
    callToNotP (.constant (.primitive p)) operands = true ↔ p = .not ∧ ∃ x, operands = [x] := by
  unfold callToNotP callToP
  rw [Bool.and_eq_true, decide_eq_true_eq]
  refine and_congr_right fun hp => ?_
  subst hp
  rw [show Primitive.arityValidP .not operands.length = (1 == operands.length) from rfl,
    beq_iff_eq]
  exact eq_comm.trans List.length_eq_one_iff

/-! ## The cases of a combination -/

section Combination
variable {operator : Expression} {operands : List Expression} {v : Object} {t : List Effect}

theorem sound_unknown (h : UnknownOperator operator) :
    Sound (.combination operator operands) v t := by
  have hnone : callToNotP operator operands = false ∧
      callToBooleanPredicateP operator operands = false ∧
      callToEffectFreePrimitiveP operator operands = false := by
    cases operator with
    | constant value =>
      cases value with
      | word => exact ⟨rfl, rfl, rfl⟩
      | primitive p =>
        obtain ⟨hb, hf⟩ := h
        have hnot : p ≠ .not := fun he => hb (by rw [he]; decide)
        simp [callToNotP, callToBooleanPredicateP, callToEffectFreePrimitiveP, callToP, hb, hf,
          hnot]
    | _ => exact ⟨rfl, rfl, rfl⟩
  obtain ⟨h1, h2, h3⟩ := hnone
  cases operator with
  | procedure => exact h.elim
  | _ =>
    constructor <;> intro hp <;>
      simp_all [alwaysFalseP_combination, neverFalseP_combination, booleanP,
        effectFreeP_combination, pureFalseP_combination, pureTrueP_combination,
        Answer.and_eq_true, procedureBody]

theorem sound_compare {p b} (h : p.comparesNumbers = true) :
    Sound (.combination (.constant (.primitive p)) operands) (.ofBool b) t := by
  obtain ⟨-, hf⟩ := of_decide_eq_true h
  have hnot : p ≠ .not := fun he => hf (by rw [he]; decide)
  have h1 : callToNotP (.constant (.primitive p)) operands = false := by
    simp [callToNotP, callToP, hnot]
  have h2 : callToEffectFreePrimitiveP (.constant (.primitive p)) operands = false := by
    simp [callToEffectFreePrimitiveP, callToP, hf]
  constructor
  case boolean => exact fun _ => ofBool_boolean b
  all_goals
    intro hp
    simp_all [alwaysFalseP_combination, neverFalseP_combination, effectFreeP_combination,
      pureFalseP_combination, pureTrueP_combination, Answer.and_eq_true, procedureBody]

theorem sound_inspect {p args} (hv : p.inspect args = some v)
    (hfree : everyEffectFree operands = .ok true → t = [])
    (hone : ∀ e, operands = [e] → ∀ u, args = [u] → Sound e u t) :
    Sound (.combination (.constant (.primitive p)) operands) v t := by
  have heffect : effectFreeP (.combination (.constant (.primitive p)) operands) = .ok true →
      t = [] := fun hp => hfree (Answer.and_eq_true.mp (by rw [← hp, effectFreeP_combination])).1
  have hbool : booleanP (.combination (.constant (.primitive p)) operands) = .ok true →
      v = .sharpF ∨ v = .sharpT := by
    intro hp
    rw [booleanP, callToBooleanPredicateP, callToP, Except.ok.injEq, Bool.and_eq_true,
      decide_eq_true_eq] at hp
    exact inspect_boolean hp.1 hv
  by_cases hnot : callToNotP (.constant (.primitive p)) operands = true
  · obtain ⟨rfl, e, rfl⟩ := callToNotP_iff.mp hnot
    obtain ⟨u, rfl, rfl⟩ := inspect_not hv
    have hs := hone e rfl u rfl
    refine ⟨?_, ?_, hbool, heffect, ?_, ?_⟩ <;> intro hp
    · rw [alwaysFalseP_combination, if_pos hnot, neverFalseFirst] at hp
      rw [decide_eq_false (hs.neverFalse hp)]
      rfl
    · rw [neverFalseP_combination, if_pos hnot, alwaysFalseFirst] at hp
      rw [hs.alwaysFalse hp]
      decide
    · rw [pureFalseP_combination, if_pos hnot, pureTrueFirst] at hp
      obtain ⟨ht, hu⟩ := hs.pureTrue hp
      exact ⟨ht, by rw [hu]; decide⟩
    · rw [pureTrueP_combination, if_pos hnot, pureFalseFirst] at hp
      obtain ⟨ht, hu⟩ := hs.pureFalse hp
      exact ⟨ht, by rw [hu]; decide⟩
  · refine ⟨?_, ?_, hbool, heffect, ?_, ?_⟩ <;> intro hp <;>
      simp_all [alwaysFalseP_combination, neverFalseP_combination, pureFalseP_combination,
        pureTrueP_combination, procedureBody]

theorem sound_procedure {required optional rest body t'}
    (hfree : everyEffectFree operands = .ok true → t = []) (hs : Sound body v t') :
    Sound (.combination (.procedure required optional rest body) operands) v (t ++ t') := by
  have hnot : callToNotP (.procedure required optional rest body) operands = false := rfl
  have hprim : callToEffectFreePrimitiveP (.procedure required optional rest body) operands =
    false := rfl
  refine ⟨?_, ?_, ?_, ?_, ?_, ?_⟩ <;> intro hp
  · rw [alwaysFalseP_combination, hnot] at hp
    exact hs.alwaysFalse hp
  · rw [neverFalseP_combination, hnot] at hp
    exact hs.neverFalse hp
  · rw [booleanP] at hp
    cases hp
  · rw [effectFreeP_combination, hprim] at hp
    obtain ⟨h1, h2⟩ := Answer.and_eq_true.mp hp
    rw [hfree h1, hs.effectFree h2, append_nil]
  · rw [pureFalseP_combination, hnot] at hp
    replace hp : Answer.and (everyEffectFree operands) (fun _ => pureFalseP body) = .ok true := hp
    obtain ⟨h1, h2⟩ := Answer.and_eq_true.mp hp
    obtain ⟨ht, hv⟩ := hs.pureFalse h2
    exact ⟨by rw [hfree h1, ht, append_nil], hv⟩
  · rw [pureTrueP_combination, hnot] at hp
    replace hp : Answer.and (everyEffectFree operands) (fun _ => pureTrueP body) = .ok true := hp
    obtain ⟨h1, h2⟩ := Answer.and_eq_true.mp hp
    obtain ⟨ht, hv⟩ := hs.pureTrue h2
    exact ⟨by rw [hfree h1, ht, append_nil], hv⟩

end Combination

/-! ## The other expressions -/

section Cases
variable {e p c a : Expression} {u v : Object} {t t' : List Effect}

theorem sound_consequent (hp : Sound p u t) (hu : u ≠ .sharpF) (hc : Sound c v t') :
    Sound (.conditional p c a) v (t ++ t') := by
  have hbranch : ∀ {q : Answer}, Answer.or (alwaysFalseP p) (fun _ => q) = .ok true →
      q = .ok true := fun h => (Answer.or_eq_true h).resolve_left fun hf => hu (hp.alwaysFalse hf)
  refine ⟨?_, ?_, ?_, ?_, ?_, ?_⟩ <;> intro h
  · rw [alwaysFalseP, Answer.and_eq_true] at h
    exact hc.alwaysFalse (hbranch h.1)
  · rw [neverFalseP, Answer.and_eq_true] at h
    exact hc.neverFalse (hbranch h.1)
  · rw [booleanP, Answer.and_eq_true] at h
    exact hc.boolean (hbranch h.1)
  · rw [effectFreeP, Answer.and_eq_true, Answer.and_eq_true] at h
    rw [hp.effectFree h.1, hc.effectFree (hbranch h.2.1), append_nil]
  · rw [pureFalseP, Answer.and_eq_true, Answer.and_eq_true] at h
    obtain ⟨ht, hv⟩ := hc.pureFalse (hbranch h.2.1)
    exact ⟨by rw [hp.effectFree h.1, ht, append_nil], hv⟩
  · rw [pureTrueP, Answer.and_eq_true, Answer.and_eq_true] at h
    obtain ⟨ht, hv⟩ := hc.pureTrue (hbranch h.2.1)
    exact ⟨by rw [hp.effectFree h.1, ht, append_nil], hv⟩

theorem sound_alternative (hp : Sound p .sharpF t) (ha : Sound a v t') :
    Sound (.conditional p c a) v (t ++ t') := by
  have hbranch : ∀ {q : Answer}, Answer.or (neverFalseP p) (fun _ => q) = .ok true →
      q = .ok true := fun h => (Answer.or_eq_true h).resolve_left fun hf => hp.neverFalse hf rfl
  refine ⟨?_, ?_, ?_, ?_, ?_, ?_⟩ <;> intro h
  · rw [alwaysFalseP, Answer.and_eq_true] at h
    exact ha.alwaysFalse (hbranch h.2)
  · rw [neverFalseP, Answer.and_eq_true] at h
    exact ha.neverFalse (hbranch h.2)
  · rw [booleanP, Answer.and_eq_true] at h
    exact ha.boolean (hbranch h.2)
  · rw [effectFreeP, Answer.and_eq_true, Answer.and_eq_true] at h
    rw [hp.effectFree h.1, ha.effectFree (hbranch h.2.2), append_nil]
  · rw [pureFalseP, Answer.and_eq_true, Answer.and_eq_true] at h
    obtain ⟨ht, hv⟩ := ha.pureFalse (hbranch h.2.2)
    exact ⟨by rw [hp.effectFree h.1, ht, append_nil], hv⟩
  · rw [pureTrueP, Answer.and_eq_true, Answer.and_eq_true] at h
    obtain ⟨ht, hv⟩ := ha.pureTrue (hbranch h.2.2)
    exact ⟨by rw [hp.effectFree h.1, ht, append_nil], hv⟩

theorem sound_taken (hp : Sound p v t) (hv : v ≠ .sharpF) : Sound (.disjunction p a) v t := by
  refine ⟨?_, fun _ => hv, ?_, ?_, ?_, ?_⟩ <;> intro h
  · rw [alwaysFalseP, Answer.and_eq_true] at h
    exact hp.alwaysFalse h.1
  · rw [booleanP, Answer.and_eq_true] at h
    exact hp.boolean h.1
  · rw [effectFreeP, Answer.and_eq_true] at h
    exact hp.effectFree h.1
  · rw [pureFalseP, Answer.and_eq_true] at h
    exact hp.pureFalse h.1
  · rw [pureTrueP, Answer.and_eq_true, Answer.and_eq_true] at h
    exact ⟨hp.effectFree h.1, (hp.boolean h.2.1).resolve_left hv⟩

theorem sound_otherwise (hp : Sound p .sharpF t) (ha : Sound a v t') :
    Sound (.disjunction p a) v (t ++ t') := by
  have hbranch : ∀ {q : Answer}, Answer.or (neverFalseP p) (fun _ => q) = .ok true →
      q = .ok true := fun h => (Answer.or_eq_true h).resolve_left fun hf => hp.neverFalse hf rfl
  refine ⟨?_, ?_, ?_, ?_, ?_, ?_⟩ <;> intro h
  · rw [alwaysFalseP, Answer.and_eq_true] at h
    exact ha.alwaysFalse h.2
  · rw [neverFalseP] at h
    exact ha.neverFalse (hbranch h)
  · rw [booleanP, Answer.and_eq_true] at h
    exact ha.boolean (hbranch h.2)
  · rw [effectFreeP, Answer.and_eq_true] at h
    rw [hp.effectFree h.1, ha.effectFree (hbranch h.2), append_nil]
  · rw [pureFalseP, Answer.and_eq_true] at h
    obtain ⟨ht, hv⟩ := ha.pureFalse h.2
    exact ⟨by rw [(hp.pureFalse h.1).1, ht, append_nil], hv⟩
  · rw [pureTrueP, Answer.and_eq_true, Answer.and_eq_true] at h
    obtain ⟨ht, hv⟩ := ha.pureTrue h.2.2
    exact ⟨by rw [hp.effectFree h.1, ht, append_nil], hv⟩

theorem sound_last (h : Sound e v t) : Sound (.sequence [e]) v t := by
  refine ⟨?_, ?_, ?_, ?_, ?_, ?_⟩ <;> intro hp
  · rw [alwaysFalseP, alwaysFalseLast] at hp
    exact h.alwaysFalse hp
  · rw [neverFalseP, neverFalseLast] at hp
    exact h.neverFalse hp
  · rw [booleanP, booleanLast] at hp
    exact h.boolean hp
  · rw [effectFreeP, everyEffectFree, Answer.and_eq_true] at hp
    exact h.effectFree hp.1
  · rw [pureFalseP, Answer.and_eq_true, pureFalseLast] at hp
    exact h.pureFalse hp.2
  · rw [pureTrueP, Answer.and_eq_true, pureTrueLast] at hp
    exact h.pureTrue hp.2

theorem sound_action {next rest} (h : Sound e u t) (hs : Sound (.sequence (next :: rest)) v t') :
    Sound (.sequence (e :: next :: rest)) v
      (t ++ t') := by
  refine ⟨?_, ?_, ?_, ?_, ?_, ?_⟩ <;> intro hp
  · rw [alwaysFalseP, alwaysFalseLast] at hp
    exact hs.alwaysFalse (by rwa [alwaysFalseP])
  · rw [neverFalseP, neverFalseLast] at hp
    exact hs.neverFalse (by rwa [neverFalseP])
  · rw [booleanP, booleanLast] at hp
    exact hs.boolean (by rwa [booleanP])
  · rw [effectFreeP, everyEffectFree, Answer.and_eq_true] at hp
    rw [h.effectFree hp.1, hs.effectFree (by rw [effectFreeP]; exact hp.2), append_nil]
  · rw [pureFalseP, List.dropLast_cons_cons, everyEffectFree, Answer.and_eq_true, Answer.and_eq_true,
      pureFalseLast] at hp
    obtain ⟨ht, hv⟩ := hs.pureFalse (by rw [pureFalseP, Answer.and_eq_true]; exact ⟨hp.1.2, hp.2⟩)
    exact ⟨by rw [h.effectFree hp.1.1, ht, append_nil], hv⟩
  · rw [pureTrueP, List.dropLast_cons_cons, everyEffectFree, Answer.and_eq_true, Answer.and_eq_true,
      pureTrueLast] at hp
    obtain ⟨ht, hv⟩ := hs.pureTrue (by rw [pureTrueP, Answer.and_eq_true]; exact ⟨hp.1.2, hp.2⟩)
    exact ⟨by rw [h.effectFree hp.1.1, ht, append_nil], hv⟩

theorem sound_declaration (h : Sound e v t) : Sound (.declaration e) v t := by
  refine ⟨?_, ?_, ?_, ?_, ?_, ?_⟩ <;> intro hp
  · exact h.alwaysFalse (by rwa [alwaysFalseP] at hp)
  · exact h.neverFalse (by rwa [neverFalseP] at hp)
  · exact h.boolean (by rwa [booleanP] at hp)
  · exact h.effectFree (by rwa [effectFreeP] at hp)
  · exact h.pureFalse (by rwa [pureFalseP] at hp)
  · exact h.pureTrue (by rwa [pureTrueP] at hp)

theorem sound_constant : Sound (.constant v) v [] := by
  refine ⟨?_, ?_, ?_, fun _ => rfl, ?_, ?_⟩ <;> intro hp
  · simpa [alwaysFalseP] using hp
  · simpa [neverFalseP] using hp
  · simpa [booleanP] using hp
  · exact ⟨rfl, by simpa [pureFalseP] using hp⟩
  · exact ⟨rfl, by simpa [pureTrueP] using hp⟩

end Cases

/-! ## Every evaluation -/

/-- What is known of the last action of an open block. -/
structure BodySound (actions : List (Option Expression)) (v : Object) : Prop where
  alwaysFalse : alwaysFalseBody actions = .ok true → v = .sharpF
  neverFalse : neverFalseBody actions = .ok true → v ≠ .sharpF
  boolean : booleanBody actions = .ok true → v = .sharpF ∨ v = .sharpT

theorem BodySound.cons {next rest v} (h : BodySound (next :: rest) v) (a : Option Expression) :
    BodySound (a :: next :: rest) v := by
  cases a <;> exact ⟨fun hp => h.alwaysFalse (by rwa [alwaysFalseBody] at hp),
    fun hp => h.neverFalse (by rwa [neverFalseBody] at hp),
    fun hp => h.boolean (by rwa [booleanBody] at hp)⟩

def TaskSound : Task → List Object → List Effect → Prop
  | .expression e, vs, t => ∀ v, vs = [v] → Sound e v t
  | .operands es, vs, t =>
    (everyEffectFree es = .ok true → t = []) ∧ ∀ e, es = [e] → ∀ v, vs = [v] → Sound e v t
  | .actions es, vs, t => ∀ v, vs = [v] → Sound (.sequence es) v t
  | .body _ _ actions, vs, _ => ∀ v, vs = [v] → BodySound actions v

theorem everyEffectFree_append {es es'} :
    everyEffectFree (es ++ es') = .ok true ↔
      everyEffectFree es = .ok true ∧ everyEffectFree es' = .ok true := by
  induction es with
  | nil => simp [everyEffectFree]
  | cons e es ih =>
    rw [List.cons_append, everyEffectFree, Answer.and_eq_true, ih, everyEffectFree,
      Answer.and_eq_true, and_assoc]

theorem taskSound_operand {before after e v left right t t'} (he : Sound e v t)
    (hs : TaskSound (.operands (before ++ after)) (left ++ right) t')
    (hl : left.length = before.length) :
    TaskSound (.operands (before ++ e :: after)) (left ++ v :: right) (t ++ t') := by
  refine ⟨fun hp => ?_, fun e' he' v' hv' => ?_⟩
  · rw [everyEffectFree_append, everyEffectFree, Answer.and_eq_true] at hp
    rw [he.effectFree hp.2.1, hs.1 (everyEffectFree_append.mpr ⟨hp.1, hp.2.2⟩), append_nil]
  · -- a single operand: nothing stands before or after it
    have hbefore : before = [] ∧ e = e' ∧ after = [] := by
      cases before with
      | nil => simpa using he'
      | cons => simp at he'
    obtain ⟨rfl, rfl, rfl⟩ := hbefore
    obtain rfl : left = [] := List.length_eq_zero_iff.mp hl
    have ht : t' = [] := hs.1 rfl
    obtain ⟨rfl, -⟩ : v = v' ∧ right = [] := by simpa using hv'
    rwa [ht, append_nil]

theorem taskSound_expression {e v t} : TaskSound (.expression e) [v] t ↔ Sound e v t := by
  refine ⟨fun h => h v rfl, fun h v' hv => ?_⟩
  cases hv
  exact h

theorem taskSound_actions {es v t} : TaskSound (.actions es) [v] t ↔ Sound (.sequence es) v t := by
  refine ⟨fun h => h v rfl, fun h v' hv => ?_⟩
  cases hv
  exact h

theorem taskSound_body {vars values actions v t} :
    TaskSound (.body vars values actions) [v] t ↔ BodySound actions v := by
  refine ⟨fun h => h v rfl, fun h v' hv => ?_⟩
  cases hv
  exact h

theorem eval_sound {m env task h h' vs t} (heval : Eval m env task h vs h' t) :
    TaskSound task vs t := by
  induction heval with
  | access _ _ _ ih | accessGlobal _ _ ih =>
    have he := taskSound_expression.mp ih
    refine taskSound_expression.mpr ⟨?_, ?_, ?_, fun hp => he.effectFree ?_, ?_, ?_⟩
    case refine_4 => rwa [effectFreeP] at hp
    all_goals
      intro hp
      simp [alwaysFalseP, neverFalseP, booleanP, pureFalseP, pureTrueP] at hp
  | assignment | quotation =>
    refine taskSound_expression.mpr ⟨?_, ?_, ?_, ?_, ?_, ?_⟩ <;> intro hp <;>
      simp [alwaysFalseP, neverFalseP, booleanP, effectFreeP, pureFalseP, pureTrueP] at hp
  | combination _ _ _ ih ihbody =>
    exact taskSound_expression.mpr (sound_procedure ih.1 (taskSound_expression.mp ihbody))
  | inspect _ hv ih => exact taskSound_expression.mpr (sound_inspect hv ih.1 ih.2)
  | compare _ hp _ _ => exact taskSound_expression.mpr (sound_compare hp)
  | callClosure hu | callUnknown hu => exact taskSound_expression.mpr (sound_unknown hu)
  | consequent _ hu _ ihp ihc =>
    exact taskSound_expression.mpr
      (sound_consequent (taskSound_expression.mp ihp) hu (taskSound_expression.mp ihc))
  | alternative _ _ ihp iha =>
    exact taskSound_expression.mpr
      (sound_alternative (taskSound_expression.mp ihp) (taskSound_expression.mp iha))
  | constant => exact taskSound_expression.mpr sound_constant
  | declaration _ ih =>
    exact taskSound_expression.mpr (sound_declaration (taskSound_expression.mp ih))
  | delay | procedure | theEnvironment =>
    refine taskSound_expression.mpr ⟨?_, fun _ => by simp [Object.sharpF], ?_, fun _ => rfl, ?_, ?_⟩
      <;> intro hp <;> simp [alwaysFalseP, booleanP, pureFalseP, pureTrueP] at hp
  | reference =>
    refine taskSound_expression.mpr ⟨?_, ?_, ?_, fun _ => rfl, ?_, ?_⟩ <;> intro hp <;>
      simp [alwaysFalseP, neverFalseP, booleanP, pureFalseP, pureTrueP] at hp
  | taken _ hv ih => exact taskSound_expression.mpr (sound_taken (taskSound_expression.mp ih) hv)
  | otherwise _ _ ihp iha =>
    exact taskSound_expression.mpr
      (sound_otherwise (taskSound_expression.mp ihp) (taskSound_expression.mp iha))
  | openBlock _ ih =>
    have hb := taskSound_body.mp ih
    refine taskSound_expression.mpr ⟨fun hp => hb.alwaysFalse ?_, fun hp => hb.neverFalse ?_,
      fun hp => hb.boolean ?_, ?_, ?_, ?_⟩
    · rwa [alwaysFalseP] at hp
    · rwa [neverFalseP] at hp
    · rwa [booleanP] at hp
    all_goals
      intro hp
      simp [effectFreeP, pureFalseP, pureTrueP] at hp
  | sequence _ ih => exact taskSound_expression.mpr (taskSound_actions.mp ih)
  | noOperands => exact ⟨fun _ => rfl, fun e he => by cases he⟩
  | operand _ _ hl ihe ihs => exact taskSound_operand (taskSound_expression.mp ihe) ihs hl
  | lastAction _ ih => exact taskSound_actions.mpr (sound_last (taskSound_expression.mp ih))
  | action _ _ ihe ihs =>
    exact taskSound_actions.mpr
      (sound_action (taskSound_expression.mp ihe) (taskSound_actions.mp ihs))
  | bodyLast _ ih =>
    have he := taskSound_expression.mp ih
    exact taskSound_body.mpr ⟨fun hp => he.alwaysFalse (by rwa [alwaysFalseBody] at hp),
      fun hp => he.neverFalse (by rwa [neverFalseBody] at hp),
      fun hp => he.boolean (by rwa [booleanBody] at hp)⟩
  | bodyAction _ _ _ ihs => exact taskSound_body.mpr ((taskSound_body.mp ihs).cons _)
  | bodyLastDefinition =>
    refine taskSound_body.mpr ⟨?_, ?_, ?_⟩ <;> intro hp <;>
      simp [alwaysFalseBody, neverFalseBody, booleanBody] at hp
  | bodyDefinition _ _ _ _ ihs => exact taskSound_body.mpr ((taskSound_body.mp ihs).cons _)

/-! ## Where the analyses are defined -/

def Answers (p : Answer) : Prop := ∃ b, p = .ok b

theorem Answers.and {p} (hp : Answers p) (hq : Answers (q ())) : Answers (Answer.and p q) := by
  obtain ⟨b, rfl⟩ := hp
  cases b
  · exact ⟨false, rfl⟩
  · exact hq

theorem Answers.or {p} (hp : Answers p) (hq : Answers (q ())) : Answers (Answer.or p q) := by
  obtain ⟨b, rfl⟩ := hp
  cases b
  · exact hq
  · exact ⟨true, rfl⟩

structure Defined (e : Expression) : Prop where
  alwaysFalse : Answers (alwaysFalseP e)
  neverFalse : Answers (neverFalseP e)
  boolean : Answers (booleanP e)
  effectFree : Answers (effectFreeP e)
  pureFalse : Answers (pureFalseP e)
  pureTrue : Answers (pureTrueP e)

theorem answers_everyEffectFree {es} (h : ∀ e ∈ es, Defined e) : Answers (everyEffectFree es) := by
  induction es with
  | nil => exact ⟨true, by rw [everyEffectFree]⟩
  | cons e es ih =>
    rw [everyEffectFree]
    exact (h e mem_cons_self).effectFree.and (ih fun s hs => h s (List.mem_cons_of_mem _ hs))

theorem exists_last {es} (h : es ≠ []) : ∃ e ∈ es,
    alwaysFalseLast es = alwaysFalseP e ∧ neverFalseLast es = neverFalseP e ∧
      booleanLast es = booleanP e ∧ pureFalseLast es = pureFalseP e ∧
      pureTrueLast es = pureTrueP e := by
  induction es with
  | nil => exact absurd rfl h
  | cons e es ih =>
    cases es with
    | nil =>
      exact ⟨e, mem_cons_self, by rw [alwaysFalseLast], by rw [neverFalseLast],
        by rw [booleanLast], by rw [pureFalseLast], by rw [pureTrueLast]⟩
    | cons next rest =>
      obtain ⟨s, hs, h1, h2, h3, h4, h5⟩ := ih (by simp)
      exact ⟨s, List.mem_cons_of_mem _ hs, by rw [alwaysFalseLast, h1], by rw [neverFalseLast, h2],
        by rw [booleanLast, h3], by rw [pureFalseLast, h4], by rw [pureTrueLast, h5]⟩

def EndsInDefinition : Expression → Prop
  | .openBlock _ _ actions => actions.getLast? = some none
  | _ => False

theorem exists_last_action {actions} (h : actions ≠ []) (hd : actions.getLast? ≠ some none) :
    ∃ e, some e ∈ actions ∧
      alwaysFalseBody actions = alwaysFalseP e ∧ neverFalseBody actions = neverFalseP e ∧
      booleanBody actions = booleanP e := by
  induction actions with
  | nil => exact absurd rfl h
  | cons a actions ih =>
    cases actions with
    | nil =>
      cases a with
      | none => exact absurd rfl hd
      | some e =>
        exact ⟨e, mem_cons_self, by rw [alwaysFalseBody], by rw [neverFalseBody],
          by rw [booleanBody]⟩
    | cons next rest =>
      obtain ⟨e, he, h1, h2, h3⟩ := ih (by simp) (by rwa [List.getLast?_cons_cons] at hd)
      refine ⟨e, List.mem_cons_of_mem _ he, ?_, ?_, ?_⟩
      · cases a <;> rw [alwaysFalseBody, h1]
      · cases a <;> rw [neverFalseBody, h2]
      · cases a <;> rw [booleanBody, h3]

theorem alwaysFalseBody_marker {actions} (h : actions.getLast? = some none) :
    alwaysFalseBody actions = .error .notAnExpression := by
  induction actions with
  | nil => cases h
  | cons a actions ih =>
    cases actions with
    | nil =>
      cases h
      rw [alwaysFalseBody]
    | cons next rest =>
      rw [List.getLast?_cons_cons] at h
      cases a <;> rw [alwaysFalseBody, ih h]

theorem defined_combination {operator operands}
    (h : ∀ s ∈ (combination operator operands).parts, Defined s)
    (hbody : ∀ body, operator.procedureBody = some body → Defined body) :
    Defined (.combination operator operands) := by
  have hoperand : ∀ e ∈ operands, Defined e := fun e he => h e (List.mem_cons_of_mem _ he)
  have hfree := answers_everyEffectFree hoperand
  have helim : ∀ {f : Expression → Answer}, (∀ e, Defined e → Answers (f e)) →
      Answers (operator.procedureBody.elim (.ok false) f) := by
    intro f hf
    cases hb : operator.procedureBody with
    | none => exact ⟨false, rfl⟩
    | some body => exact hf body (hbody body hb)
  -- a call to `not` has its one operand first
  have hfirst : callToNotP operator operands = true → ∃ e, operands = [e] ∧ Defined e := by
    intro hnot
    unfold callToNotP callToP at hnot
    split at hnot
    · obtain ⟨-, e, rfl⟩ := callToNotP_iff.mp hnot
      exact ⟨e, rfl, hoperand e mem_cons_self⟩
    · cases hnot
  refine ⟨?_, ?_, ⟨_, by rw [booleanP]⟩, ?_, ?_, ?_⟩
  · rw [alwaysFalseP_combination]
    split
    · rename_i hnot
      obtain ⟨e, rfl, he⟩ := hfirst hnot
      rw [neverFalseFirst]
      exact he.neverFalse
    · exact helim fun e he => he.alwaysFalse
  · rw [neverFalseP_combination]
    split
    · rename_i hnot
      obtain ⟨e, rfl, he⟩ := hfirst hnot
      rw [alwaysFalseFirst]
      exact he.alwaysFalse
    · exact helim fun e he => he.neverFalse
  · rw [effectFreeP_combination]
    refine hfree.and ?_
    split
    · exact ⟨true, rfl⟩
    · exact helim fun e he => he.effectFree
  · rw [pureFalseP_combination]
    split
    · rename_i hnot
      obtain ⟨e, rfl, he⟩ := hfirst hnot
      rw [pureTrueFirst]
      exact he.pureTrue
    · exact helim fun e he => hfree.and he.pureFalse
  · rw [pureTrueP_combination]
    split
    · rename_i hnot
      obtain ⟨e, rfl, he⟩ := hfirst hnot
      rw [pureFalseFirst]
      exact he.pureFalse
    · exact helim fun e he => hfree.and he.pureTrue

theorem defined_of_no_final_definition (e : Expression) :
    Legal e → (∀ s, Within e s → ¬ EndsInDefinition s) →
      Defined e ∧ ∀ s ∈ e.parts, Defined s := by
  -- the body of an operator is a part of a part, so the parts are kept along
  induction e using induction_on_parts with
  | step e ih =>
    intro hlegal hend
    have hpart : ∀ s ∈ e.parts, Defined s ∧ ∀ s' ∈ s.parts, Defined s' := fun s hs =>
      ih s hs (hlegal.part hs) fun s' hs' => hend s' (Relation.ReflTransGen.head hs hs')
    refine ⟨?_, fun s hs => (hpart s hs).1⟩
    have hnode := hlegal.node
    have hself := hend e Relation.ReflTransGen.refl
    cases e with
    | combination operator operands =>
      refine defined_combination (fun s hs => (hpart s hs).1) fun body hb => ?_
      cases operator with
      | procedure required optional rest body' =>
        cases hb
        exact (hpart _ mem_cons_self).2 _ (List.mem_singleton_self _)
      | _ => cases hb
    | conditional p c a =>
      obtain ⟨hp, -⟩ := hpart p (by simp [parts])
      obtain ⟨hc, -⟩ := hpart c (by simp [parts])
      obtain ⟨ha, -⟩ := hpart a (by simp [parts])
      refine ⟨?_, ?_, ?_, ?_, ?_, ?_⟩
      · rw [alwaysFalseP]
        exact (hp.alwaysFalse.or hc.alwaysFalse).and (hp.neverFalse.or ha.alwaysFalse)
      · rw [neverFalseP]
        exact (hp.alwaysFalse.or hc.neverFalse).and (hp.neverFalse.or ha.neverFalse)
      · rw [booleanP]
        exact (hp.alwaysFalse.or hc.boolean).and (hp.neverFalse.or ha.boolean)
      · rw [effectFreeP]
        exact hp.effectFree.and
          ((hp.alwaysFalse.or hc.effectFree).and (hp.neverFalse.or ha.effectFree))
      · rw [pureFalseP]
        exact hp.effectFree.and
          ((hp.alwaysFalse.or hc.pureFalse).and (hp.neverFalse.or ha.pureFalse))
      · rw [pureTrueP]
        exact hp.effectFree.and
          ((hp.alwaysFalse.or hc.pureTrue).and (hp.neverFalse.or ha.pureTrue))
    | disjunction p a =>
      obtain ⟨hp, -⟩ := hpart p (by simp [parts])
      obtain ⟨ha, -⟩ := hpart a (by simp [parts])
      refine ⟨?_, ?_, ?_, ?_, ?_, ?_⟩
      · rw [alwaysFalseP]
        exact hp.alwaysFalse.and ha.alwaysFalse
      · rw [neverFalseP]
        exact hp.neverFalse.or ha.neverFalse
      · rw [booleanP]
        exact hp.boolean.and (hp.neverFalse.or ha.boolean)
      · rw [effectFreeP]
        exact hp.effectFree.and (hp.neverFalse.or ha.effectFree)
      · rw [pureFalseP]
        exact hp.pureFalse.and ha.pureFalse
      · rw [pureTrueP]
        exact hp.effectFree.and (hp.boolean.and ha.pureTrue)
    | declaration s =>
      obtain ⟨hs, -⟩ := hpart s (by simp [parts])
      exact ⟨by rw [alwaysFalseP]; exact hs.alwaysFalse, by rw [neverFalseP]; exact hs.neverFalse,
        by rw [booleanP]; exact hs.boolean, by rw [effectFreeP]; exact hs.effectFree,
        by rw [pureFalseP]; exact hs.pureFalse, by rw [pureTrueP]; exact hs.pureTrue⟩
    | openBlock vars values actions =>
      obtain ⟨s, hs, h1, h2, h3⟩ := exists_last_action hnode.1 hself
      have hmem : s ∈ (openBlock vars values actions).parts :=
        List.mem_append_right _ (List.mem_filterMap.mpr ⟨some s, hs, rfl⟩)
      obtain ⟨hs, -⟩ := hpart s hmem
      refine ⟨?_, ?_, ?_, ⟨false, by rw [effectFreeP]⟩, ⟨false, by rw [pureFalseP]⟩,
        ⟨false, by rw [pureTrueP]⟩⟩
      · rw [alwaysFalseP, h1]
        exact hs.alwaysFalse
      · rw [neverFalseP, h2]
        exact hs.neverFalse
      · rw [booleanP, h3]
        exact hs.boolean
    | sequence actions =>
      obtain ⟨s, hs, h1, h2, h3, h4, h5⟩ := exists_last hnode
      have hall : ∀ e ∈ actions, Defined e := fun e he => (hpart e he).1
      have hdrop := answers_everyEffectFree fun e he => hall e (List.dropLast_subset _ he)
      refine ⟨?_, ?_, ?_, ?_, ?_, ?_⟩
      · rw [alwaysFalseP, h1]
        exact (hall s hs).alwaysFalse
      · rw [neverFalseP, h2]
        exact (hall s hs).neverFalse
      · rw [booleanP, h3]
        exact (hall s hs).boolean
      · rw [effectFreeP]
        exact answers_everyEffectFree hall
      · rw [pureFalseP]
        exact hdrop.and (h4 ▸ (hall s hs).pureFalse)
      · rw [pureTrueP]
        exact hdrop.and (h5 ▸ (hall s hs).pureTrue)
    | access environment name =>
      obtain ⟨hs, -⟩ := hpart environment (by simp [parts])
      exact ⟨⟨false, by rw [alwaysFalseP]⟩, ⟨false, by rw [neverFalseP]⟩,
        ⟨false, by rw [booleanP]⟩, by rw [effectFreeP]; exact hs.effectFree,
        ⟨false, by rw [pureFalseP]⟩, ⟨false, by rw [pureTrueP]⟩⟩
    | constant value =>
      exact ⟨⟨_, by rw [alwaysFalseP]⟩, ⟨_, by rw [neverFalseP]⟩, ⟨_, by rw [booleanP]⟩,
        ⟨true, by rw [effectFreeP]⟩, ⟨_, by rw [pureFalseP]⟩, ⟨_, by rw [pureTrueP]⟩⟩
    | _ =>
      refine ⟨?_, ?_, ?_, ?_, ?_, ?_⟩ <;>
        simp [Answers, alwaysFalseP, neverFalseP, booleanP, effectFreeP, pureFalseP, pureTrueP]

/-! ## The analyses -/

theorem forall_within_of_leaves {P : Expression → Prop} {e} (he : P e)
    (h : ∀ p ∈ e.parts, p.parts = [] ∧ P p) : ∀ s, Within e s → P s := by
  intro s hs
  rcases Relation.ReflTransGen.cases_head hs with rfl | ⟨p, hp, hs⟩
  · exact he
  · rcases Relation.ReflTransGen.cases_head hs with rfl | ⟨q, hq, -⟩
    · exact (h p hp).2
    · rw [(h p hp).1] at hq
      exact absurd hq List.not_mem_nil

/-- No predicate signals an error, and what they answer holds of every
evaluation. -/
def Analyzed (m : Machine) (e : Expression) : Prop :=
  Defined e ∧ ∀ env h v h' t, Eval m env (.expression e) h [v] h' t → Sound e v t

/-- **Every expression that occurs in `e` is analysed soundly and without error
exactly when no open block in `e` ends in a definition.** -/
theorem expressions_analyzed_iff (m : Machine) {e : Expression} (hlegal : Legal e) :
    (∀ s, Within e s → Analyzed m s) ↔ ∀ s, Within e s → ¬ EndsInDefinition s := by
  constructor
  · intro hall s hs hend
    obtain ⟨b, hb⟩ := (hall s hs).1.alwaysFalse
    cases s with
    | openBlock vars values actions =>
      rw [alwaysFalseP, alwaysFalseBody_marker hend] at hb
      cases hb
    | _ => exact hend
  · intro hend s hs
    have hs' : Legal s := fun s' hs' => hlegal s' (Relation.ReflTransGen.trans hs hs')
    refine ⟨(defined_of_no_final_definition s hs' fun s' hs' =>
      hend s' (Relation.ReflTransGen.trans hs hs')).1, ?_⟩
    intro env h v h' t heval
    exact taskSound_expression.mp (eval_sound heval)

/-- A block that defines a variable and ends in a reference to it. -/
theorem expressions_analyzed_block :
    Analyzed ⟨fun _ _ => none, fun _ _ _ _ _ _ => False⟩
      (.openBlock [⟨0, "x"⟩] [.constant .sharpT] [none, some (.reference ⟨0, "x"⟩)]) := by
  have hwithin : ∀ s, Within
      (.openBlock [⟨0, "x"⟩] [.constant .sharpT] [none, some (.reference ⟨0, "x"⟩)]) s →
      LegalNode s ∧ ¬ EndsInDefinition s := by
    refine forall_within_of_leaves ⟨⟨by simp, rfl, rfl⟩, by simp [EndsInDefinition]⟩ fun p hp => ?_
    simp only [parts, List.filterMap_cons, id, List.filterMap_nil, List.cons_append,
      List.nil_append, List.mem_cons, List.not_mem_nil, or_false] at hp
    rcases hp with rfl | rfl <;> exact ⟨rfl, trivial, fun h => h⟩
  exact (expressions_analyzed_iff _ fun s hs => (hwithin s hs).1).mpr
    (fun s hs => (hwithin s hs).2) _ Relation.ReflTransGen.refl

/-- A block of one definition stops the dispatch. -/
theorem final_definition_not_analyzed :
    ¬ ∀ (m : Machine) (e : Expression), Legal e → Analyzed m e := by
  intro hall
  have hlegal : Legal (.openBlock [⟨0, "x"⟩] [.constant .sharpT] [none]) := by
    refine forall_within_of_leaves ⟨by simp, rfl, rfl⟩ fun p hp => ?_
    simp only [parts, List.filterMap_cons, id, List.filterMap_nil, append_nil,
      List.mem_singleton] at hp
    subst hp
    exact ⟨rfl, trivial⟩
  obtain ⟨b, hb⟩ := (hall ⟨fun _ _ => none, fun _ _ _ _ _ _ => False⟩ _ hlegal).1.alwaysFalse
  rw [alwaysFalseP, alwaysFalseBody] at hb
  cases hb

end MitScheme.Sf
