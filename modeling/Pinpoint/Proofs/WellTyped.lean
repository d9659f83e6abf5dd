/-
Well-typed proof states.

In a well-typed state the statements of the current goal, and those of the
metavariables, are types in the context in which rules are elaborated.  So
that context is closed, and what a rule that was elaborated says of its variables
is well scoped.

* `WellTyped.closed_context` — the types in the context are well scoped;
* `WellTyped.scoped_rules` — both sides of a rule are well scoped under its
  variables.
-/
import Pinpoint.Proofs.Rules

namespace Pinpoint

/-- Whether a term is a type in a context, given enough fuel. -/
def Environment.IsType (env : Environment) (Γ : LocalContext) (e : Expr) : Prop :=
  ∃ n s T s' l, (env.inferType n Γ e).Returns s T s' ∧ env.whnf .all n T = some (.sort l)

theorem Environment.IsType.scoped {env : Environment} {Γ : LocalContext} {e : Expr}
    (h : env.IsType Γ e) : e.Scoped 0 := by
  obtain ⟨n, s, T, s', l, hT, -⟩ := h
  exact scoped_of_inferType hT

/-- Whether everything that a rewrite of the current goal looks at is well
typed. -/
structure ProofState.WellTyped (st : ProofState) : Prop where
  /-- Every constant was checked when it was declared. -/
  env : st.env.Checked
  /-- The statements of the hypotheses and of the metavariables are types. -/
  context : ∀ g Γ, st.currentGoal? = some g → st.localContext? g = some Γ →
    ∀ entry ∈ Γ.entries, st.env.IsType Γ entry.type
  /-- The target is a type. -/
  target : ∀ g Γ e, st.currentGoal? = some g → st.localContext? g = some Γ →
    st.metas.instantiate? g.target = some e → st.env.IsType Γ e
  /-- No bound variable of a value is without its binder. -/
  values : ∀ v ∈ st.metas.metas, ∀ e, v.value = some e → e.Scoped 0
  /-- Hypotheses have free variables of their own. -/
  nodup : ∀ g, st.currentGoal? = some g → (g.hyps.map Hypothesis.fvar).Nodup

namespace ProofState

variable {st : ProofState} {g : Goal} {Γ : LocalContext}

namespace WellTyped

theorem closed_context (hst : st.WellTyped) (hg : st.currentGoal? = some g)
    (hΓ : st.localContext? g = some Γ) : Γ.Closed :=
  fun entry hentry => (hst.context g Γ hg hΓ entry hentry).scoped

end WellTyped

end ProofState

/-! ### Rules -/

namespace ProofState

variable {fuel : Nat} {st : ProofState} {g : Goal} {Γ : LocalContext} {spec : RuleSpec}
  {specs : List RuleSpec} {r : Rule}

namespace WellTyped

/-- Both sides of a rule are well scoped under its variables. -/
theorem scoped_rules (hst : st.WellTyped) (hg : st.currentGoal? = some g) {rules : List Rule}
    (h : (st.elaborateRules fuel g specs).run = some (.ok rules)) (hr : r ∈ rules) :
    r.statement.lhs.Scoped r.varTypes.length ∧ r.statement.rhs.Scoped r.varTypes.length := by
  obtain ⟨spec, -, h⟩ := elaborateRules_eq_ok h hr
  have hstates := scoped_elaborateRule hst.env.closed hst.values
    (fun _ hΓ => hst.closed_context hg hΓ) h
  exact ⟨hstates.lhs, hstates.rhs⟩

theorem scoped_replacement (hst : st.WellTyped) (hg : st.currentGoal? = some g)
    {rules : List Rule} (h : (st.elaborateRules fuel g specs).run = some (.ok rules))
    (hr : r ∈ rules) : r.replacement.Scoped r.varTypes.length := by
  obtain ⟨hl, hr⟩ := hst.scoped_rules hg h hr
  unfold Rule.replacement
  cases r.reversed
  · exact hr
  · exact hl

end WellTyped

end ProofState

end Pinpoint
