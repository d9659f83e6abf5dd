/-
The equations from which a rewrite is put together.

* `Rule.instantiate_eq_ok` — an instance of a rule exists only if all its
  variables have values, and is then `Rule.equationAt` those values;
* `Equation.congruence_lam_eq_ok` — an equation lifted through a function is
  `Equation.under` it;
* `Equation.castGoal_eq_ok`, `Equation.castHyp_eq_ok` — the casts.
-/
import Pinpoint.Rewrite.Equation

namespace Pinpoint

theorem mapM_zipIdx_eq_ok_iff {f : Option Expr × Nat → Except ProofError Expr}
    (hf : ∀ v i w, f (v, i) = .ok w ↔ v = some w) {subst : List (Option Expr)} {n : Nat}
    {vals : List Expr} : (subst.zipIdx n).mapM f = .ok vals ↔ subst = vals.map some := by
  induction subst generalizing n vals with
  | nil => cases vals <;> simp [pure, Except.pure]
  | cons v subst ih =>
    rw [List.zipIdx_cons, List.mapM_cons]
    cases hv : f (v, n) with
    | error e =>
      have hne : ∀ w, v ≠ some w := fun w h => by simp [(hf v n w).mpr h] at hv
      cases vals <;> simp [bind, Except.bind, hne]
    | ok w =>
      obtain rfl := (hf v n w).mp hv
      cases hrest : (subst.zipIdx (n + 1)).mapM f with
      | error e =>
        have hne : ∀ vals : List Expr, subst ≠ vals.map some := fun vals h => by
          rw [ih.mpr h] at hrest
          cases hrest
        cases vals <;> simp [bind, Except.bind, hne]
      | ok ws =>
        rw [ih.mp hrest]
        have hinj : ∀ ws vals : List Expr, ws.map some = vals.map some ↔ ws = vals := fun ws vals =>
          List.map_inj_right fun _ _ => Option.some.inj
        cases vals <;> simp [bind, Except.bind, pure, Except.pure, hinj]

/-- All variables have values exactly if none is without one. -/
theorem allDetermined_eq_ok_iff {subst : List (Option Expr)} {vals : List Expr} :
    allDetermined subst = .ok vals ↔ subst = vals.map some := by
  unfold allDetermined
  refine mapM_zipIdx_eq_ok_iff fun v i w => ?_
  cases v <;> simp

theorem Environment.constant_eq_ok {env : Environment} {n : Name} {ls : List Level} {e : Expr}
    (h : env.constant n ls = .ok e) : env.contains n ∧ e = .const n ls := by
  unfold constant at h
  by_cases hn : env.contains n
  · rw [if_pos hn] at h
    exact ⟨hn, (Except.ok.inj h).symm⟩
  · rw [if_neg hn] at h
    cases h

/-- The equation that a rule states of the given values, from pattern to
replacement. -/
def Rule.equationAt (r : Rule) (vals : List Expr) : Equation :=
  let proof := Expr.mkApp r.proof vals
  let carrier := r.statement.carrier.instantiateRev vals
  let lhs := r.statement.lhs.instantiateRev vals
  let rhs := r.statement.rhs.instantiateRev vals
  match r.statement.relation, r.reversed with
  | .eq, false => ⟨r.statement.level, carrier, lhs, rhs, proof⟩
  | .eq, true => ⟨r.statement.level, carrier, rhs, lhs,
      .mkApp (.const Vocabulary.eqSymm [r.statement.level]) [carrier, lhs, rhs, proof]⟩
  | .iff, false => ⟨.one, .prop, lhs, rhs,
      .mkApp (.const Vocabulary.propext []) [lhs, rhs, proof]⟩
  | .iff, true => ⟨.one, .prop, rhs, lhs,
      .mkApp (.const Vocabulary.propext []) [rhs, lhs,
        .mkApp (.const Vocabulary.iffSymm []) [lhs, rhs, proof]]⟩

namespace Rule

variable {env : Environment} {r : Rule} {subst : List (Option Expr)} {eq : Equation}

@[simp] theorem equationAt_lhs (r : Rule) (vals : List Expr) :
    (r.equationAt vals).lhs = r.pattern.instantiateRev vals := by
  unfold equationAt pattern
  cases r.statement.relation <;> cases r.reversed <;> rfl

@[simp] theorem equationAt_rhs (r : Rule) (vals : List Expr) :
    (r.equationAt vals).rhs = r.replacement.instantiateRev vals := by
  unfold equationAt replacement
  cases r.statement.relation <;> cases r.reversed <;> rfl

/-- A rule has an instance only if all its variables have values. -/
theorem instantiate_eq_ok (h : r.instantiate env subst = .ok eq) :
    ∃ vals : List Expr, subst = vals.map some ∧ eq = r.equationAt vals := by
  unfold instantiate at h
  cases hvals : allDetermined subst with
  | error e => simp [hvals, bind, Except.bind] at h
  | ok vals =>
    refine ⟨vals, allDetermined_eq_ok_iff.mp hvals, ?_⟩
    simp only [hvals, bind, Except.bind] at h
    split at h
    · simp_all [equationAt, pure, Except.pure]
    · split at h
      · cases h
      · rename_i symm hsymm
        obtain ⟨-, rfl⟩ := Environment.constant_eq_ok hsymm
        simp_all [equationAt, pure, Except.pure]
    · split at h
      · cases h
      · rename_i propext hpropext
        obtain ⟨-, rfl⟩ := Environment.constant_eq_ok hpropext
        simp_all [equationAt, pure, Except.pure]
    · split at h
      · cases h
      · rename_i propext hpropext
        obtain ⟨-, rfl⟩ := Environment.constant_eq_ok hpropext
        split at h
        · cases h
        · rename_i symm hsymm
          obtain ⟨-, rfl⟩ := Environment.constant_eq_ok hsymm
          simp_all [equationAt, pure, Except.pure]

end Rule

namespace Equation

variable {env : Environment} {eq : Equation}

/-- Only functions lift an equation, also under metadata. -/
theorem congruence_eq_ok {motive codomain : Expr} {level : Level} {eq' : Equation}
    (h : eq.congruence env motive codomain level = .ok eq') :
    ∃ info dom body, motive.stripMData = .lam info dom body ∧
      eq' = ⟨level, codomain, body.instantiate eq.lhs, body.instantiate eq.rhs,
        .mkApp (.const Vocabulary.congrArg [eq.level, level])
          [eq.carrier, codomain, eq.lhs, eq.rhs, motive, eq.proof]⟩ := by
  unfold congruence at h
  split at h
  · rename_i info dom body hmotive
    refine ⟨info, dom, body, hmotive, ?_⟩
    cases hcongr : env.constant Vocabulary.congrArg [eq.level, level] with
    | error e => simp [hcongr, bind, Except.bind] at h
    | ok congr =>
      obtain ⟨-, rfl⟩ := Environment.constant_eq_ok hcongr
      simp only [hcongr, bind, Except.bind, pure, Except.pure, Except.ok.injEq] at h
      exact h.symm
  · cases h

/-- The equation lifted through the function with the given body. -/
def under (eq : Equation) (dom body codomain : Expr) (level : Level) : Equation where
  level
  carrier := codomain
  lhs := body.instantiate eq.lhs
  rhs := body.instantiate eq.rhs
  proof := .mkApp (.const Vocabulary.congrArg [eq.level, level])
    [eq.carrier, codomain, eq.lhs, eq.rhs, .lam .default dom body, eq.proof]

theorem congruence_lam_eq_ok {dom body codomain : Expr} {level : Level} {eq' : Equation}
    (h : eq.congruence env (.lam .default dom body) codomain level = .ok eq') :
    eq' = eq.under dom body codomain level := by
  obtain ⟨info, dom', body', hmotive, rfl⟩ := congruence_eq_ok h
  obtain ⟨rfl, rfl, rfl⟩ := Expr.lam.inj hmotive
  rfl

theorem castGoal_eq_ok {new proof : Expr} (h : eq.castGoal env new = .ok proof) :
    eq.carrier.isProp ∧
      proof = .mkApp (.const Vocabulary.eqMpr [.zero]) [eq.lhs, eq.rhs, eq.proof, new] := by
  unfold castGoal at h
  by_cases hprop : eq.carrier.isProp
  · rw [if_pos hprop] at h
    cases hmpr : env.constant Vocabulary.eqMpr [.zero] with
    | error e => simp [hmpr, bind, Except.bind] at h
    | ok mpr =>
      obtain ⟨-, rfl⟩ := Environment.constant_eq_ok hmpr
      simp only [hmpr, bind, Except.bind, pure, Except.pure, Except.ok.injEq] at h
      exact ⟨hprop, h.symm⟩
  · rw [if_neg hprop] at h
    cases h

theorem castHyp_eq_ok {old proof : Expr} (h : eq.castHyp env old = .ok proof) :
    eq.carrier.isProp ∧
      proof = .mkApp (.const Vocabulary.eqMp [.zero]) [eq.lhs, eq.rhs, eq.proof, old] := by
  unfold castHyp at h
  by_cases hprop : eq.carrier.isProp
  · rw [if_pos hprop] at h
    cases hmp : env.constant Vocabulary.eqMp [.zero] with
    | error e => simp [hmp, bind, Except.bind] at h
    | ok mp =>
      obtain ⟨-, rfl⟩ := Environment.constant_eq_ok hmp
      simp only [hmp, bind, Except.bind, pure, Except.pure, Except.ok.injEq] at h
      exact ⟨hprop, h.symm⟩
  · rw [if_neg hprop] at h
    cases h

end Equation

end Pinpoint
