/-
Proofs that need themselves.

Rules are typed among the hypotheses and the metavariables, and a metavariable
is given a value without a look at what the value mentions.  So a rule that is
given as a term may be the hole itself that is to be filled.

* `acyclic_of_run` — as long as no rule that is given as a term mentions a
  metavariable, no metavariable needs itself, holes can be filled in all terms,
  and a state without goals has a proof;
* `circular_of_own_hole` — a target rewritten with its own hole as the rule.
-/
import Pinpoint.Proofs.Linear
import Pinpoint.Proofs.Prelude

namespace Pinpoint

theorem growing_isPlain (n : Nat) : Growing n fun _ => FVarId.IsPlain where
  mono := id
  rewritten {k} hk := .inl <| by
    rw [UInt64.toNat_ofNat_of_lt' (show n + k < 2 ^ 64 by omega)]
    exact hk
  plain _ := id

/-- In every state that a run leads to whose rules mention no metavariables, no
metavariable needs itself; so filling holes ends, and a state without goals has
a proof. -/
theorem acyclic_of_run {env : Environment} {target : Expr} {hyps : List Hypothesis} {st : ProofState}
    (henv : env.FVarsIn FVarId.IsPlain) (htarget : target.FVarsIn FVarId.IsPlain)
    (hhyps : ∀ h ∈ hyps, h.fvar.IsPlain ∧ h.type.FVarsIn FVarId.IsPlain)
    (hrun : (ProofState.start env target hyps).Run (fun _ c => c.RulesIn FVarId.IsPlain) st)
    (hroom : st.HasRoom (ProofState.start env target hyps).nextFVar.toNat) :
    (∀ m, ¬ Relation.TransGen st.metas.Needs m m) ∧ (∀ e, (st.metas.instantiate? e).isSome) ∧
      (st.isComplete → ∃ t, st.instantiatedProof? = some (some t)) := by
  have hp := growing_isPlain (ProofState.start env target hyps).nextFVar.toNat
  have hst := (Linear.start (p := fun _ => FVarId.IsPlain) henv htarget hhyps).run hp hrun hroom
  have hforward := hst.forward hp hroom
  exact ⟨hforward.acyclic hroom.metas, hforward.instantiate?_isSome, (hst.partialProof? hp hroom).2⟩

/-! ### A target and two rules -/

namespace Circularity

/-- Two numbers that are equal if the hypothesis holds. -/
def target : Expr :=
  .mkEq .one (.const Vocabulary.nat []) (.const (.simple "a") []) (.const (.simple "b") [])

/-- The prelude with two numbers. -/
def env : Environment := ⟨Prelude.constants ++
  [⟨.simple "a", [], .const Vocabulary.nat [], none⟩,
    ⟨.simple "b", [], .const Vocabulary.nat [], none⟩]⟩

/-- What is to be proved is also the only hypothesis. -/
def hyps : List Hypothesis := [⟨⟨0⟩, "h", target, none⟩]

/-- The target rewritten with a rule and then, if possible, closed. -/
def rewritten (spec : RuleSpec) (tryRfl : Bool) :
    Option (Except RewriteError RewriteOutcome × ProofState) :=
  (nthRewrite 20 none 0 [spec] .goal ⟨tryRfl, none⟩).answer (.start env target hyps)

end Circularity

open Circularity in
/-- With the hypothesis as the rule there is a proof. -/
theorem proof_of_hypothesis :
    ∃ st, rewritten (.ofText "h") true = some (.ok ⟨[.goal], []⟩, st) ∧ st.isComplete ∧
      (∀ m, ¬ Relation.TransGen st.metas.Needs m m) ∧
      ∃ t, st.instantiatedProof? = some (some t) := by
  obtain ⟨st, hst, heq⟩ : ∃ st, rewritten (.ofText "h") true = some (.ok ⟨[.goal], []⟩, st) ∧
      (st.isComplete, st.hypValues.length, st.metas.metas.length) = (true, 0, 2) :=
    ChangeM.answer_eq_ok (by decide +kernel)
  simp only [Prod.mk.injEq] at heq
  obtain ⟨hcomplete, hvalues, hmetas⟩ := heq
  have hrules : Call.RulesIn FVarId.IsPlain
      (.rewrite 20 none 0 [.ofText "h"] .goal ⟨true, none⟩) := by
    simp [Call.RulesIn, RuleSpec.FVarsIn, RuleSpec.ofText]
  have hrun : (ProofState.start env target hyps).Run (fun _ c => c.RulesIn FVarId.IsPlain) st :=
    .cons hrules (.rewrite hst) (.nil st)
  obtain ⟨hacyclic, -, hproof⟩ := acyclic_of_run
    (Environment.fvarFree_prelude_append (by decide)).fvarsIn (by decide) (by decide) hrun
    ⟨by rw [hvalues]; decide, by rw [hmetas]; decide⟩
  exact ⟨st, hst, hcomplete, hacyclic, hproof hcomplete⟩

open Circularity in
/-- With the hole that is to be filled as the rule the rewrite succeeds, and the
value of the hole mentions the hole. -/
theorem circular_of_own_hole :
    ∃ st, rewritten ⟨.expr (MetaId.toExpr ⟨0⟩), false⟩ false = some (.ok ⟨[.goal], []⟩, st) ∧
      st.metas.Needs ⟨0⟩ ⟨0⟩ ∧ st.partialProof? = none := by
  refine ⟨_, rfl, ⟨_, rfl, ?_⟩, ?_⟩
  · decide
  · rfl

end Pinpoint
