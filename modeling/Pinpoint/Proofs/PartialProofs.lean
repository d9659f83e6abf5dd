/-
The proof so far.

The proof of the first target is put together from the values of all
metavariables, with one hole for the goal that is left, and the rewritten
hypotheses in it are unfolded, the latest first.  So it is a term about the
hypotheses that the proof began with.

* `LinearProof` — what is asked of a proof state and of its proof;
* `linearProof_of_run` — every run has it, in environments whose constants are
  without free variables;
* `proof_of_open_constant` — a constant that mentions a variable of the checker
  is accepted, and brings that variable into proofs.
-/
import Pinpoint.Proofs.ClosedStates
import Pinpoint.Proofs.Linear
import Pinpoint.Proofs.Prelude
import Pinpoint.Proofs.Unfolding

namespace Pinpoint

namespace ProofState

/-- Whether there is one goal at most, and the proof is about the given
hypotheses and the hole for that goal. -/
structure LinearProof (hyps : List Hypothesis) (st : ProofState) : Prop where
  goals : st.goals = [] ∨ ∃ g, st.goals = [g]
  /-- The metavariable of the goal is the only one without a value. -/
  unassigned : ∀ m, (∃ w, st.metas.get? m = some w ∧ w.value = none) ↔
    ∃ g, st.currentGoal? = some g ∧ g.metaId = m
  type_eq : ∀ g w, st.currentGoal? = some g → st.metas.get? g.metaId = some w → w.type = g.target
  /-- The value of a metavariable mentions later ones only. -/
  forward : st.metas.Forward
  /-- The proof so far can be read off. -/
  reads : ∃ t, st.partialProof? = some t
  noLoose : ∀ t, st.partialProof? = some (some t) →
    t.Scoped 0 ∧ (t.nesting < 2 ^ 32 → t.hasLooseBVars = false)
  fvars : ∀ t, st.partialProof? = some (some t) →
    t.FVarsIn fun x => IsHyp hyps x ∨ ∃ g, st.currentGoal? = some g ∧ x = g.metaId.toFVar
  complete : st.isComplete → ∃ t, st.instantiatedProof? = some (some t) ∧ t.FVarsIn (IsHyp hyps)

end ProofState

/-- The hypotheses that a proof began with, and as many rewritten ones. -/
def IsHypOrRewritten (hyps : List Hypothesis) (n k : Nat) (x : FVarId) : Prop :=
  IsHyp hyps x ∨ n ≤ x.id.toNat ∧ x.id.toNat < n + k

theorem growing_isHypOrRewritten {hyps : List Hypothesis} (hplain : ∀ h ∈ hyps, h.fvar.IsPlain)
    (n : Nat) : Growing n (IsHypOrRewritten hyps n) where
  mono hx := hx.imp_right fun ⟨hle, hlt⟩ => ⟨hle, by omega⟩
  rewritten {k} hk := by
    refine .inr ?_
    rw [UInt64.toNat_ofNat_of_lt' (show n + k < 2 ^ 64 by omega)]
    omega
  plain hk hx := by
    rcases hx with ⟨h, hh, rfl⟩ | ⟨-, hlt⟩
    · exact hplain h hh
    · exact .inl (by omega)

section
variable {hyps : List Hypothesis} {n : Nat} {st : ProofState}

/-- What a term mentions once rewritten hypotheses are unfolded. -/
theorem Linear.fvarsIn_unfoldHyps (hst : Linear n (IsHypOrRewritten hyps n) st)
    {q : FVarId → Prop} {e : Expr}
    (he : e.FVarsIn fun x => IsHypOrRewritten hyps n st.hypValues.length x ∨ q x) :
    (st.unfoldHyps e).FVarsIn fun x => IsHyp hyps x ∨ q x := by
  rw [ProofState.unfoldHyps_eq]
  refine (Expr.FVarsIn.substFVars_reverse (fun j x v hj => ?_) he).mono fun x hx =>
    hx.imp_left fun hx => hx.resolve_right fun ⟨hle, hlt⟩ => by omega
  obtain ⟨rfl, hv⟩ := hst.rewritten j x v hj
  refine ⟨fun y hy => ?_, hv⟩
  rcases hy with hy | ⟨hle, hlt⟩
  · exact .inr (.inl hy)
  · rcases Nat.lt_or_ge y.id.toNat (n + j) with hold | hnew
    · exact .inr (.inr ⟨hle, hold⟩)
    · refine .inl (congrArg FVarId.mk ?_)
      rw [← UInt64.ofNat_toNat (x := y.id), show y.id.toNat = n + j by omega]

theorem ProofState.partialProof?_eq_some {t : Expr} (ht : st.partialProof? = some (some t)) :
    ∃ v e, st.root? = some v ∧ st.metas.instantiate? v = some e ∧ t = st.unfoldHyps e := by
  unfold ProofState.partialProof? at ht
  cases hroot : st.root? with
  | none =>
    rw [hroot] at ht
    cases ht
  | some v =>
    rw [hroot] at ht
    obtain ⟨e, he, heq⟩ := Option.map_eq_some_iff.mp ht
    exact ⟨v, e, Eq.refl _, he, (Option.some.inj heq).symm⟩

/-- What the proof so far mentions. -/
theorem Linear.fvarsIn_partialProof (hst : Linear n (IsHypOrRewritten hyps n) st)
    (hroom : st.HasRoom n) {t : Expr}
    (ht : st.partialProof? = some (some t)) :
    t.FVarsIn fun x => IsHyp hyps x ∨ ∃ g, st.currentGoal? = some g ∧ x = g.metaId.toFVar := by
  obtain ⟨v, e, hroot, he, rfl⟩ := ProofState.partialProof?_eq_some ht
  refine hst.fvarsIn_unfoldHyps ?_
  have hvalues : ∀ m v, st.metas.value? m = some v → v.FVarsIn fun x =>
      IsHypOrRewritten hyps n st.hypValues.length x ∨
        ∃ m' : MetaId, x = m'.toFVar ∧ m'.index.toNat < st.metas.metas.length :=
    fun m v hv => (hst.values m v hv).mono fun x hx =>
      hx.imp_right fun ⟨m', hx, _, hlt⟩ => ⟨m', hx, hlt⟩
  refine (MetaContext.fvarsIn_instantiateUpTo hvalues (hvalues ⟨0⟩ v hroot) he).mono ?_
  rintro x ⟨hx | ⟨m, rfl, hlt⟩, hnone⟩
  · exact .inl hx
  · -- a metavariable that is left has no value, so it is that of the goal
    have hmetas := hroom.metas
    rw [MetaContext.valueOf?_toFVar (by omega)] at hnone
    obtain ⟨w, hw⟩ : ∃ w, st.metas.get? m = some w := ⟨_, List.getElem?_eq_getElem hlt⟩
    rw [MetaContext.value?, hw] at hnone
    obtain ⟨g, hg, rfl⟩ := hst.filled m w hw hnone
    exact .inr ⟨g, hg, rfl⟩

/-- The proof so far of a closed proof state is well scoped. -/
theorem ProofState.Closed.scoped_partialProof (hst : st.Closed) {t : Expr}
    (ht : st.partialProof? = some (some t)) : t.Scoped 0 := by
  obtain ⟨v, e, hroot, he, rfl⟩ := ProofState.partialProof?_eq_some ht
  obtain ⟨w, hw, hwv⟩ := Option.bind_eq_some_iff.mp hroot
  have hv := hst.values w (List.mem_of_getElem? hw) v hwv
  rw [ProofState.unfoldHyps_eq]
  exact (hst.scoped_instantiate? hv he).substFVars fun x u hx =>
    hst.hypValues x u (List.mem_reverse.mp hx)

end

/-- In every state that a run leads to there is one goal at most, its
metavariable is the only one without a value, the values of metavariables
mention later ones only, and the proof is a closed term about the hypotheses
that it began with and the hole for the goal. -/
theorem linearProof_of_run {env : Environment} {target : Expr} {hyps : List Hypothesis}
    {st : ProofState} (henv : env.Checked) (hfree : env.FVarFree)
    (hplain : ∀ h ∈ hyps, h.fvar.IsPlain)
    (hhyps : ∀ h ∈ hyps, h.type.Scoped 0 ∧ h.type.FVarsIn (IsHyp hyps))
    (htarget : target.Scoped 0 ∧ target.FVarsIn (IsHyp hyps))
    (hrun : (ProofState.start env target hyps).Run (fun _ c => c.RulesIn (IsHyp hyps)) st)
    (hroom : st.HasRoom (ProofState.start env target hyps).nextFVar.toNat) :
    st.LinearProof hyps := by
  have hp := growing_isHypOrRewritten hplain (ProofState.start env target hyps).nextFVar.toNat
  have hbegin : ∀ x, IsHyp hyps x → IsHypOrRewritten hyps
      (ProofState.start env target hyps).nextFVar.toNat 0 x := fun _ => .inl
  have hstart : Linear _ (IsHypOrRewritten hyps _) (.start env target hyps) :=
    .start hfree.fvarsIn (htarget.2.mono hbegin)
      fun h hh => ⟨hbegin _ ⟨h, hh, rfl⟩, (hhyps h hh).2.mono hbegin⟩
  -- Both invariants hold at the start, so they hold at the end of the run.
  have hst := hstart.run hp (hrun.mono fun _ c hc => hc.mono hbegin) hroom
  have hclosed : st.Closed :=
    (ProofState.Closed.start henv.closed htarget.1 fun h hh => (hhyps h hh).1).run hrun
  obtain ⟨hreads, hcomplete⟩ := hst.partialProof? hp hroom
  constructor
  case goals => exact hst.goals
  case unassigned =>
    refine fun m => ⟨fun ⟨w, hw, hnone⟩ => hst.filled m w hw hnone, ?_⟩
    rintro ⟨g, hg, rfl⟩
    exact ⟨_, hst.hole g hg, rfl⟩
  case type_eq =>
    intro g w hg hw
    rw [hst.hole g hg] at hw
    exact Option.some.inj hw ▸ rfl
  case forward => exact hst.forward hp hroom
  case reads => exact hreads
  case noLoose =>
    intro t ht
    have hscoped := hclosed.scoped_partialProof ht
    exact ⟨hscoped, hscoped.hasLooseBVars⟩
  case fvars => exact fun t => hst.fvarsIn_partialProof hroom
  case complete =>
    -- Without a goal there is no hole left in the proof.
    intro hdone
    obtain ⟨t, ht⟩ := hcomplete hdone
    refine ⟨t, ht, ?_⟩
    rw [ProofState.instantiatedProof?, if_pos hdone] at ht
    refine (hst.fvarsIn_partialProof hroom ht).mono fun x hx => hx.resolve_right ?_
    rintro ⟨g, hg, -⟩
    rw [ProofState.currentGoal?, List.isEmpty_iff.mp hdone] at hg
    cases hg

/-! ### Two runs -/

namespace PartialProofs

def nat : Expr := .const Vocabulary.nat []

/-- Three numbers, and two equations between them. -/
def hyps : List Hypothesis :=
  [⟨⟨0⟩, "a", nat, none⟩, ⟨⟨1⟩, "b", nat, none⟩, ⟨⟨2⟩, "c", nat, none⟩,
    ⟨⟨3⟩, "h", .mkEq .one nat (.fvar ⟨0⟩) (.fvar ⟨1⟩), none⟩,
    ⟨⟨4⟩, "k", .mkEq .one nat (.fvar ⟨2⟩) (.fvar ⟨0⟩), none⟩]

/-- The first and the last number are equal. -/
def target : Expr := .mkEq .one nat (.fvar ⟨2⟩) (.fvar ⟨1⟩)

/-- The first equation rewrites the second, which rewrites the target. -/
def proved : Option ProofState := do
  let (_, st) ← (nthRewrite 20 none 0 [.ofText "h"] (.hyp "k") ⟨false, none⟩).answer
    (.start ⟨Prelude.constants⟩ target hyps)
  let (_, st) ← (nthRewrite 20 none 0 [.ofText "k"] .goal ⟨true, none⟩).answer st
  return st

/-- A number, a predicate, and an axiom that all numbers are the first variable
that the checker draws. -/
def constants : List Constant :=
  [⟨.simple "a", [], nat, none⟩,
    ⟨.simple "P", [], .pi .default nat .prop, none⟩,
    ⟨.simple "k", [], .pi .default nat (.mkEq .one nat (.bvar 0) (.fvar ⟨Checker.firstFresh⟩)), none⟩]

/-- The predicate of the number. -/
def holds : Expr := .app (.const (.simple "P") []) (.const (.simple "a") [])

/-- The number is rewritten with the axiom. -/
def opened : Option (Except RewriteError RewriteOutcome × ProofState) :=
  (nthRewrite 20 none 0 [.ofText "k"] .goal ⟨false, none⟩).answer
    (.start ⟨Prelude.constants ++ constants⟩ holds [])

end PartialProofs

open PartialProofs in
/-- An equation rewritten by another one proves the target from both. -/
theorem proof_of_rewritten_hypothesis :
    ∃ st, proved = some st ∧ st.hypValues.length = 1 ∧ st.LinearProof hyps ∧
      ∃ t, st.instantiatedProof? = some (some t) ∧ t.FVarsIn (IsHyp hyps) := by
  have hproved : proved.map (fun st => (st.isComplete, st.hypValues.length, st.metas.metas.length)) =
      some (true, 1, 2) := by
    decide +kernel
  obtain ⟨st, hst, hlengths⟩ := Option.map_eq_some_iff.mp hproved
  simp only [Prod.mk.injEq] at hlengths
  obtain ⟨hdone, hvalues, hmetas⟩ := hlengths
  obtain ⟨⟨r₁, st₁⟩, h₁, h⟩ := Option.bind_eq_some_iff.mp hst
  obtain ⟨⟨r₂, st₂⟩, h₂, h⟩ := Option.bind_eq_some_iff.mp h
  obtain rfl := Option.some.inj h
  have htext : ∀ (s : String) (loc : Location) (options : RewriteOptions),
      (Call.rewrite 20 none 0 [.ofText s] loc options).RulesIn (IsHyp hyps) := by
    simp [Call.RulesIn, RuleSpec.FVarsIn, RuleSpec.ofText]
  have hrun : (ProofState.start ⟨Prelude.constants⟩ target hyps).Run
      (fun _ c => c.RulesIn (IsHyp hyps)) st₂ :=
    .cons (htext "h" _ _) (.rewrite h₁) (.cons (htext "k" _ _) (.rewrite h₂) (.nil st₂))
  have hlinear := linearProof_of_run Environment.checked_prelude Environment.fvarFree_prelude
    (by decide) (by decide) (by decide) hrun ⟨by rw [hvalues]; decide, by rw [hmetas]; decide⟩
  exact ⟨st₂, hst, hvalues, hlinear, hlinear.complete hdone⟩

open PartialProofs in
/-- A checked constant whose type mentions the variable that the checker draws
for its binder brings that variable into a proof. -/
theorem proof_of_open_constant :
    Environment.ExtendsPrelude ⟨Prelude.constants ++ constants⟩ ∧
      ∃ st, opened = some (.ok ⟨[.goal], []⟩, st) ∧ ¬ st.LinearProof [] := by
  have hdeclared : Environment.declareAll ⟨Prelude.constants⟩ 50 constants =
      some (⟨Prelude.constants ++ constants⟩, .ok ()) := by
    rfl
  refine ⟨Environment.of_declareAll .declare Environment.extendsPrelude_prelude hdeclared, ?_⟩
  obtain ⟨st, hst, heq⟩ : ∃ st, opened = some (.ok ⟨[.goal], []⟩, st) ∧
      (st.metas.metas.length, st.partialProof?.map (Option.map (Expr.hasFVar ⟨Checker.firstFresh⟩))) =
        (2, some (some true)) :=
    ChangeM.answer_eq_ok (by decide +kernel)
  obtain ⟨hmetas, hproof⟩ := Prod.mk.inj heq
  refine ⟨st, hst, fun hlinear => ?_⟩
  obtain ⟨t?, ht, hfvar⟩ := Option.map_eq_some_iff.mp hproof
  obtain ⟨t, rfl, hfvar⟩ := Option.map_eq_some_iff.mp hfvar
  -- the variable is not that of a goal, of which there are few
  rcases Expr.fvarsIn_iff.mp (hlinear.fvars t ht) _ (Option.some.inj hfvar) with
    ⟨h, hh, -⟩ | ⟨g, hg, hx⟩
  · cases hh
  · obtain ⟨w, hw, -⟩ := (hlinear.unassigned g.metaId).mpr ⟨g, hg, rfl⟩
    have hlt := (List.getElem?_eq_some_iff.mp hw).1
    have hid := MetaContext.toNat_toFVar (m := g.metaId) (by omega)
    rw [← hx, show (FVarId.mk Checker.firstFresh).id.toNat = 2 ^ 62 from rfl] at hid
    omega

end Pinpoint
