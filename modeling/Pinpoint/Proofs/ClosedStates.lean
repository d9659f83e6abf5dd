/-
Proof states without loose bound variables.

The bound variables of all terms of a proof state have their binders inside the
terms, if that is so where the proof begins: rules are well scoped because they
have types, and a change makes terms of those of the state and of the rules.

* `Closed.replace`, `Closed.close` — each change keeps a proof state closed;
* `Closed.run` — so does a run.
-/
import Pinpoint.Proofs.Replacement
import Pinpoint.Proofs.Runs

namespace Pinpoint

namespace ProofState

/-- Whether all terms of a proof state are well scoped. -/
structure Closed (st : ProofState) : Prop where
  env : st.env.Closed
  targets : ∀ g ∈ st.goals, g.target.Scoped 0
  hyps : ∀ g ∈ st.goals, ∀ h ∈ g.hyps, h.type.Scoped 0
  types : ∀ m ∈ st.metas.metas, m.type.Scoped 0
  values : ∀ m ∈ st.metas.metas, ∀ v, m.value = some v → v.Scoped 0
  hypValues : ∀ x v, (x, v) ∈ st.hypValues → v.Scoped 0

namespace Closed

variable {st st' : ProofState} {g : Goal} {eq : Equation} {site : Site} {e : Expr}

theorem mem_goals (hg : st.currentGoal? = some g) : g ∈ st.goals :=
  List.mem_of_mem_head? hg

theorem scoped_instantiate? (hst : st.Closed) {e' : Expr} (he : e.Scoped 0)
    (h : st.metas.instantiate? e = some e') : e'.Scoped 0 :=
  MetaContext.scoped_instantiateUpTo hst.values h he

theorem scoped_statementAt (hst : st.Closed) (he : (st.statementAt site).run = some (.ok e)) :
    e.Scoped 0 := by
  obtain ⟨g, hg, he⟩ := QueryM.run_bind_eq_ok.mp he
  have hg := mem_goals (mainGoal_eq_ok.mp hg)
  cases site with
  | goal => exact hst.scoped_instantiate? (hst.targets g hg) (QueryM.run_lift_eq_ok.mp he)
  | hyp x =>
    obtain ⟨h, hh, he⟩ := QueryM.run_bind_eq_ok.mp he
    exact hst.scoped_instantiate? (hst.hyps g hg h (mem_of_hypOf hh).1) (QueryM.run_lift_eq_ok.mp he)

/-- The context in which rules are typed is well scoped. -/
theorem closed_localContext (hst : st.Closed) (hg : g ∈ st.goals) {Γ : LocalContext}
    (hΓ : st.localContext? g = some Γ) : Γ.Closed := by
  intro entry hentry
  rcases mem_localContext hΓ hentry with ⟨h, hh, -, htype⟩ | ⟨-, v, hv, htype⟩
  · exact hst.scoped_instantiate? (hst.hyps g hg h hh) htype
  · exact hst.scoped_instantiate? (hst.types v hv) htype

/-- A value given to a metavariable, and one more metavariable. -/
theorem values_assign {ms : MetaContext} (hms : ∀ m ∈ ms.metas, ∀ v, m.value = some v → v.Scoped 0)
    {m : MetaId} {v : Expr} (hv : v.Scoped 0) :
    ∀ w ∈ (ms.assign m v).metas, ∀ u, w.value = some u → u.Scoped 0 := by
  intro w hw u hu
  obtain ⟨i, hi⟩ := List.mem_iff_getElem?.mp hw
  rw [show (ms.assign m v).metas = ms.metas.modify _ _ from Eq.refl _, List.getElem?_modify] at hi
  obtain ⟨w', hw', rfl⟩ := Option.map_eq_some_iff.mp hi
  split at hu
  · exact Option.some.inj hu ▸ hv
  · exact hms w' (List.mem_of_getElem? hw') u hu

theorem types_assign {ms : MetaContext} (hms : ∀ m ∈ ms.metas, m.type.Scoped 0) (m : MetaId)
    (v : Expr) : ∀ w ∈ (ms.assign m v).metas, w.type.Scoped 0 := by
  intro w hw
  obtain ⟨w', hw', htype⟩ := MetaContext.type_of_mem_assign hw
  exact htype ▸ hms w' hw'

/-- A statement that is replaced along a well-scoped equation leaves the proof
state closed. -/
theorem replace (hst : st.Closed) (heq : eq.States Expr.Scoped) (hproof : eq.proof.Scoped 0)
    (h : (st.replace site eq).run = some (.ok st')) : st'.Closed := by
  have hcast : ∀ {c : Name} {e : Expr}, e.Scoped 0 →
      (Expr.mkApp (.const c [.zero]) [eq.lhs, eq.rhs, eq.proof, e]).Scoped 0 := by
    intro c e he
    exact Expr.scoped_mkApp.mpr ⟨trivial, by simpa using ⟨heq.lhs, heq.rhs, hproof, he⟩⟩
  cases site with
  | goal =>
    obtain ⟨g, target, proof, hg, -, -, hproof', rfl⟩ := replaceTarget_eq_ok h
    obtain ⟨-, rfl⟩ := Equation.castGoal_eq_ok hproof'
    -- The goal is replaced, and its metavariable is given the cast.
    have hg := mem_goals hg
    constructor
    case env => exact hst.env
    case targets =>
      exact List.forall_mem_cons.mpr ⟨heq.rhs, fun g' hg' => hst.targets g' (List.mem_of_mem_tail hg')⟩
    case hyps =>
      exact List.forall_mem_cons.mpr ⟨hst.hyps g hg, fun g' hg' => hst.hyps g' (List.mem_of_mem_tail hg')⟩
    case types =>
      refine types_assign (fun m hm => ?_) _ _
      rcases List.mem_append.mp hm with hm | hm
      · exact hst.types m hm
      · exact List.mem_singleton.mp hm ▸ heq.rhs
    case values =>
      refine values_assign (fun m hm v hv => ?_) (hcast trivial)
      rcases List.mem_append.mp hm with hm | hm
      · exact hst.values m hm v hv
      · obtain rfl := List.mem_singleton.mp hm
        cases hv
    case hypValues => exact hst.hypValues
  | hyp x =>
    obtain ⟨g, old, type, value, hg, -, -, -, -, hvalue, rfl⟩ := replaceHyp_eq_ok h
    obtain ⟨-, rfl⟩ := Equation.castHyp_eq_ok hvalue
    -- The hypothesis is replaced, and its cast is recorded.
    have hg := mem_goals hg
    constructor
    case env => exact hst.env
    case targets =>
      exact List.forall_mem_cons.mpr
        ⟨hst.targets g hg, fun g' hg' => hst.targets g' (List.mem_of_mem_tail hg')⟩
    case hyps =>
      refine List.forall_mem_cons.mpr
        ⟨fun h hh => ?_, fun g' hg' => hst.hyps g' (List.mem_of_mem_tail hg')⟩
      rcases List.mem_or_eq_of_mem_set hh with hh | rfl
      · exact hst.hyps g hg h hh
      · exact heq.rhs
    case types => exact hst.types
    case values => exact hst.values
    case hypValues =>
      intro y v hy
      rcases List.mem_append.mp hy with hy | hy
      · exact hst.hypValues y v hy
      · obtain ⟨-, rfl⟩ := Prod.mk.inj (List.mem_singleton.mp hy)
        exact hcast trivial

/-- A goal that is closed by reflexivity leaves the proof state closed. -/
theorem close (hst : st.Closed) {fuel : Nat} (h : (st.rfl fuel).run = some (.ok st')) :
    st'.Closed := by
  obtain ⟨g, target, s, refl, hg, hinst, hs, -, -, rfl⟩ := rfl_eq_ok h
  have hg := mem_goals hg
  constructor
  case env => exact hst.env
  case targets => exact fun g' hg' => hst.targets g' (List.mem_of_mem_tail hg')
  case hyps => exact fun g' hg' => hst.hyps g' (List.mem_of_mem_tail hg')
  case types => exact types_assign hst.types _ _
  case values =>
    exact values_assign hst.values (Expr.scoped_hereditary.reflProof
      (hst.scoped_instantiate? (hst.targets g hg) hinst) hs refl)
  case hypValues => exact hst.hypValues

/-- The rules of a call are well scoped. -/
theorem scoped_rules (hst : st.Closed) (hg : st.currentGoal? = some g) {fuel : Nat}
    {specs : List RuleSpec} {rules : List Rule}
    (h : (st.elaborateRules fuel g specs).run = some (.ok rules)) {r : Rule} (hr : r ∈ rules) :
    r.States Expr.Scoped ∧ r.proof.Scoped 0 := by
  obtain ⟨spec, -, h⟩ := elaborateRules_eq_ok h hr
  exact ⟨scoped_elaborateRule hst.env hst.values
    (fun _ hΓ => hst.closed_localContext (mem_goals hg) hΓ) h, scoped_proof_elaborateRule h⟩

/-- A call keeps a proof state closed. -/
theorem leadsTo (hst : st.Closed) {c : Call} (hc : c.LeadsTo st st') : st'.Closed := by
  cases hc with
  | closed hrfl => exact hst.close hrfl
  | refused _ => exact hst
  | rewrite h =>
    refine nthRewrite_keeps h hst (fun g rules hg helab r st₁ h₁ => ?_) fun _ _ hst => hst.close
    refine Selection.rewrite_keeps ?_ h₁ hst
    rintro st₁ site eq st₂ hst₁ - heq hreplace
    have hrules := fun r => hst.scoped_rules hg helab (r := r)
    obtain ⟨hstates, hproof⟩ := Expr.scoped_hereditary.selectedEquation heq
      (fun e => hst₁.scoped_statementAt) fun r hr => (hrules r hr).1
    exact hst₁.replace hstates (hproof fun r hr => (hrules r hr).2) hreplace

/-- A run keeps a proof state closed. -/
theorem run (hst : st.Closed) {allowed : ProofState → Call → Prop} (hrun : st.Run allowed st') :
    st'.Closed :=
  hrun.keeps (fun _ _ _ hst _ hc => hst.leadsTo hc) hst

/-- Where a proof begins, only the hypotheses and the target have to be well
scoped. -/
theorem start {env : Environment} {target : Expr} {hyps : List Hypothesis} (henv : env.Closed)
    (htarget : target.Scoped 0) (hhyps : ∀ h ∈ hyps, h.type.Scoped 0) :
    (ProofState.start env target hyps).Closed where
  env := henv
  targets g hg := List.mem_singleton.mp hg ▸ htarget
  hyps g hg := List.mem_singleton.mp hg ▸ hhyps
  types m hm := List.mem_singleton.mp hm ▸ htarget
  values m hm v hv := by
    obtain rfl := List.mem_singleton.mp hm
    cases hv
  hypValues x v h := by cases h

end Closed

end ProofState

end Pinpoint
