/-! # Machines and their runs

A machine is a step function that refuses the actions a state does not allow.
A run is a list of actions. -/

namespace MitScheme.Lib.Machine

variable {σ α : Type}

def run (step : σ → α → Option σ) : σ → List α → Option σ
  | s, [] => some s
  | s, a :: as => (step s a).bind fun s' => run step s' as

def Along (step : σ → α → Option σ) (C : σ → α → Prop) : σ → List α → Prop
  | _, [] => True
  | s, a :: as => C s a ∧ ∀ s', step s a = some s' → Along step C s' as

instance decidableAlong {step : σ → α → Option σ} {C : σ → α → Prop} [∀ s a, Decidable (C s a)] :
    ∀ (s : σ) (as : List α), Decidable (Along step C s as)
  | _, [] => isTrue trivial
  | s, a :: as =>
    match h : step s a with
    | none => decidable_of_iff (C s a) (by simp [Along, h])
    | some s' =>
      haveI : Decidable (Along step C s' as) := decidableAlong s' as
      decidable_of_iff (C s a ∧ Along step C s' as) (by simp [Along, h])

theorem run_invariant {step : σ → α → Option σ} {C : σ → α → Prop} {I : σ → Prop}
    (hstep : ∀ {s a s'}, I s → C s a → step s a = some s' → I s') :
    ∀ {as : List α} {s s' : σ}, I s → Along step C s as → run step s as = some s' → I s'
  | [], s, s', hi, _, hr => by
    cases hr
    exact hi
  | a :: as, s, s', hi, hc, hr => by
    obtain ⟨s1, h1, h2⟩ := Option.bind_eq_some_iff.mp hr
    exact run_invariant hstep (hstep hi hc.1 h1) (hc.2 s1 h1) h2

theorem along_of_forall {step : σ → α → Option σ} {C : σ → α → Prop} :
    ∀ {as : List α} {s : σ}, (∀ a ∈ as, ∀ s, C s a) → Along step C s as
  | [], _, _ => trivial
  | a :: _, s, h =>
    ⟨h a List.mem_cons_self s, fun _ _ =>
      along_of_forall fun b hb => h b (List.mem_cons_of_mem a hb)⟩

theorem Along.and {step : σ → α → Option σ} {C D : σ → α → Prop} :
    ∀ {as : List α} {s : σ}, Along step C s as → Along step D s as →
      Along step (fun s a => C s a ∧ D s a) s as
  | [], _, _, _ => trivial
  | _ :: _, _, hc, hd => ⟨⟨hc.1, hd.1⟩, fun s' hs => (hc.2 s' hs).and (hd.2 s' hs)⟩

theorem run_invariant' {step : σ → α → Option σ} {I : σ → Prop}
    (hstep : ∀ {s a s'}, I s → step s a = some s' → I s') {as : List α} {s s' : σ} (hi : I s)
    (hr : run step s as = some s') : I s' :=
  run_invariant (C := fun _ _ => True) (fun h _ hs => hstep h hs) hi
    (along_of_forall fun _ _ _ => trivial) hr

/-- What a second machine does in a run, when each step makes the call `call` of it. -/
def follow {τ : Type} (step : σ → α → Option σ) (call : σ → τ → α → τ) : σ → τ → List α → τ
  | _, k, [] => k
  | s, k, a :: as =>
    match step s a with
    | some s' => follow step call s' (call s k a) as
    | none => k

theorem follow_related {τ : Type} {step : σ → α → Option σ} {call : σ → τ → α → τ}
    {R : σ → τ → Prop}
    (hstep : ∀ {s k a s'}, R s k → step s a = some s' → R s' (call s k a)) :
    ∀ {as : List α} {s s' : σ} {k : τ}, R s k → run step s as = some s' →
      R s' (follow step call s k as)
  | [], s, s', k, h, hr => by
    cases hr
    exact h
  | a :: as, s, s', k, h, hr => by
    obtain ⟨s1, h1, h2⟩ := Option.bind_eq_some_iff.mp hr
    rw [follow, h1]
    exact follow_related hstep (hstep h h1) h2

end MitScheme.Lib.Machine
