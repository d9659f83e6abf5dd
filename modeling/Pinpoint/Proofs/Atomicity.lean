/-
Changes of a proof state that happen in full or not at all.

The statement at a site is replaced, and the first goal is closed, only after every
question about it has been answered.  So the state is as it was whenever that fails,
and the change is known from the states that it leads to.  A rewrite everywhere is
not of this kind.

* `atomic_replaceTarget`, `atomic_replaceHyp`, `atomic_rewriteAt`, `atomic_rewriteOne` —
  statements are replaced in full or not at all;
* `atomic_closeGoal`, `atomic_closeByReflexivity` — so are goals closed;
* `replaceTarget_eq`, `replaceHyp_eq`, `rewriteAt_eq`, `rfl_eq` — the states to which
  these changes lead.
-/
import Pinpoint.Proofs.Changes
import Pinpoint.Proofs.Queries

namespace Pinpoint

open ChangeM

/-! ### Steps -/

namespace ProofState

variable {ε : Type}

theorem neverFails_freshMeta (type : Expr) :
    NeverFails (freshMeta type : ChangeM ProofState ε MetaId) := nofun

theorem neverFails_assignMeta (i : MetaId) (v : Expr) :
    NeverFails (assignMeta i v : ChangeM ProofState ε Unit) := nofun

theorem neverFails_freshFVar : NeverFails (freshFVar : ChangeM ProofState ε FVarId) := nofun

theorem neverFails_pushHypValue (x : FVarId) (v : Expr) :
    NeverFails (pushHypValue x v : ChangeM ProofState ε Unit) := nofun

theorem neverFails_setGoal (g : Goal) :
    NeverFails (setGoal g : ChangeM ProofState ε Unit) := nofun

theorem neverFails_setHyp (pos : Nat) (h : Hypothesis) :
    NeverFails (setHyp pos h : ChangeM ProofState ε Unit) := nofun

end ProofState

/-! ### Statements that are replaced -/

namespace RewriteM

open ProofState

theorem atomic_replaceTarget (eq : Equation) : (replaceTarget eq).Atomic := by
  refine asks_get.bind_atomic fun st => (asks_ofQuery _).bind_atomic fun g =>
    (asks_lift _).bind_atomic fun target => ?_
  split
  · exact (asks_throw _).atomic
  · cases eq.castGoal st.env st.metas.nextId.toExpr with
    | error e => exact (asks_throw _).atomic
    | ok proof =>
      exact ((neverFails_freshMeta _).bind fun new => (neverFails_setGoal _).bind fun _ =>
        neverFails_assignMeta _ _).atomic

theorem atomic_replaceHyp (x : FVarId) (eq : Equation) : (replaceHyp x eq).Atomic := by
  refine asks_get.bind_atomic fun st => (asks_ofQuery _).bind_atomic fun g =>
    (asks_ofQuery _).bind_atomic fun h => (asks_lift _).bind_atomic fun type => ?_
  split
  · exact (asks_throw _).atomic
  · split
    · exact (asks_throw _).atomic
    · cases eq.castHyp st.env (.fvar x) with
      | error e => exact (asks_throw _).atomic
      | ok value =>
        exact (neverFails_freshFVar.bind fun new => (neverFails_setHyp _ _).bind fun _ =>
          neverFails_pushHypValue _ _).atomic

/-- A statement is replaced in full or the state is as it was. -/
theorem atomic_replace (site : Site) (eq : Equation) : (replace site eq).Atomic := by
  cases site with
  | goal => exact atomic_replaceTarget eq
  | hyp x => exact atomic_replaceHyp x eq

theorem atomic_rewriteAt (fuel : Nat) (sel : Selection) (site : Site) :
    (rewriteAt fuel sel site).Atomic :=
  (asks_ofQuery _).bind_atomic fun eq => atomic_replace site eq

end RewriteM

/-- At a single location a rewrite happens in full or the state is as it was. -/
theorem Selection.atomic_rewriteOne (fuel : Nat) (sel : Selection) (loc : Location) :
    (sel.rewriteOne fuel loc).Atomic :=
  ((asks_ofQuery _).bind_atomic fun _ =>
    RewriteM.atomic_rewriteAt fuel sel _).adapt.bind_neverFails fun _ => neverFails_pure _

/-! ### Goals that are closed -/

theorem atomic_closeGoal (proof : Expr) : (closeGoal proof).Atomic := by
  refine asks_get.bind_atomic fun st => ?_
  cases st.currentGoal? with
  | none => exact (asks_throw _).atomic
  | some g => exact (neverFails_set _).atomic

theorem atomic_closeByReflexivity (fuel : Nat) : (closeByReflexivity fuel).Atomic := by
  refine asks_get.bind_atomic fun st => ?_
  cases st.currentGoal? with
  | none => exact (asks_throw _).atomic
  | some g =>
    refine (asks_lift _).bind_atomic fun target => ?_
    cases target.statement? with
    | none => exact (asks_throw _).atomic
    | some s =>
      refine (asks_lift _).bind_atomic fun equal => ?_
      split
      · exact (asks_throw _).atomic
      · cases st.env.find? s.relation.reflName with
        | none => exact (asks_throw _).atomic
        | some refl => exact atomic_closeGoal _

/-! ### The states that changes lead to -/

namespace ProofState

variable {st : ProofState}

/-- What is asked of the first goal may use that it is the first one. -/
theorem bind_mainGoal {α : Type} {f f' : Goal → QueryM α}
    (h : ∀ g rest, st.goals = g :: rest → f g = f' g) : st.mainGoal >>= f = st.mainGoal >>= f' := by
  unfold mainGoal currentGoal?
  cases hgoals : st.goals with
  | nil => rfl
  | cons g rest => exact h g rest hgoals

/-- The target is replaced, if it is the left side and the cast can be built. -/
theorem replaceTarget_eq (st : ProofState) (eq : Equation) :
    st.replaceTarget eq = do
      let g ← st.mainGoal
      let target ← st.metas.instantiate? g.target
      if !eq.lhs.eqModMData target then
        throw (.replacement (.otherTarget g eq.lhs target))
      else match eq.castGoal st.env st.metas.nextId.toExpr with
        | .error e => throw (.replacement (.cast e))
        | .ok proof =>
          return { st with
            goals := ⟨st.metas.nextId, eq.rhs, g.hyps⟩ :: st.goals.tail
            metas := (st.metas.push eq.rhs).assign g.metaId proof } := by
  unfold replaceTarget RewriteM.replaceTarget
  rw [outcome_get_bind, outcome_ofQuery_bind]
  refine bind_mainGoal fun g rest hgoals => ?_
  rw [outcome_lift_bind]
  refine congrArg _ (funext fun target => ?_)
  by_cases hside : eq.lhs.eqModMData target
  · simp only [hside]
    cases eq.castGoal st.env st.metas.nextId.toExpr with
    | error e => rfl
    | ok proof =>
      show (pure { st with goals := st.goals.set 0 _, metas := _ } : QueryM ProofState) = _
      rw [hgoals]
      rfl
  · simp only [hside]
    rfl

/-- A hypothesis is replaced, if its type is the left side, nothing else refers to it
and the cast can be built. -/
theorem replaceHyp_eq (st : ProofState) (x : FVarId) (eq : Equation) :
    st.replaceHyp x eq = do
      let g ← st.mainGoal
      let h ← hypOf g x
      let pos := g.hyps.findIdx fun h => h.fvar = x
      let type ← st.metas.instantiate? h.type
      if !eq.lhs.eqModMData type then
        throw (.replacement (.otherHypothesis g h.name eq.lhs type))
      else if (g.hyps.eraseIdx pos).any (mentions x) || g.target.hasFVar x then
        throw (.replacement (.referenced h.name))
      else match eq.castHyp st.env (.fvar x) with
        | .error e => throw (.replacement (.cast e))
        | .ok value =>
          return { st with
            goals :=
              { g with hyps := g.hyps.set pos ⟨⟨st.nextFVar⟩, h.name, eq.rhs, some value⟩ } ::
                st.goals.tail
            nextFVar := st.nextFVar + 1
            hypValues := st.hypValues ++ [(⟨st.nextFVar⟩, value)] } := by
  unfold replaceHyp RewriteM.replaceHyp
  rw [outcome_get_bind, outcome_ofQuery_bind]
  refine bind_mainGoal fun g rest hgoals => ?_
  rw [outcome_ofQuery_bind]
  refine congrArg _ (funext fun h => ?_)
  rw [outcome_lift_bind]
  refine congrArg _ (funext fun type => ?_)
  -- All three checks come before the first part of the state is set.
  by_cases hside : eq.lhs.eqModMData type
  · by_cases hfree : (g.hyps.eraseIdx (g.hyps.findIdx fun h => h.fvar = x)).any (mentions x) ||
        g.target.hasFVar x
    · simp only [hside, hfree]
      rfl
    · simp only [hside, hfree]
      cases eq.castHyp st.env (.fvar x) with
      | error e => rfl
      | ok value =>
        show (pure { st with goals := st.goals.modify 0 _, nextFVar := _, hypValues := _ } :
          QueryM ProofState) = _
        rw [hgoals]
        rfl
  · simp only [hside]
    rfl

theorem rewriteAt_eq (fuel : Nat) (sel : Selection) (site : Site) (st : ProofState) :
    st.rewriteAt fuel sel site =
      (do let eq ← st.selectedEquation fuel sel site; st.replace site eq) := by
  unfold rewriteAt RewriteM.rewriteAt
  rw [outcome_ofQuery_bind]
  rfl

theorem rewriteAt_eq_ok {fuel : Nat} {sel : Selection} {site : Site} {st' : ProofState} :
    (st.rewriteAt fuel sel site).run = some (.ok st') ↔
      ∃ eq, (st.selectedEquation fuel sel site).run = some (.ok eq) ∧
        (st.replace site eq).run = some (.ok st') := by
  rw [rewriteAt_eq, QueryM.run_bind_eq_ok]

/-- The first goal is closed, if its sides are equal and the constant is declared. -/
theorem rfl_eq (fuel : Nat) (st : ProofState) :
    st.rfl fuel = match st.currentGoal? with
      | none => throw .noGoals
      | some g => do
        let target ← st.metas.instantiate? g.target
        match target.statement? with
        | none => throw (.notAnEquation g target)
        | some s =>
          if !(← st.isDefEq fuel .reducible s.lhs s.rhs) then
            throw (.sidesDiffer g s.lhs s.rhs)
          else match st.env.find? s.relation.reflName with
            | none => throw (.missingConstant s.relation.reflName)
            | some refl => return st.close g (s.reflProof refl) := by
  unfold ProofState.rfl closeByReflexivity
  rw [outcome_get_bind]
  cases hg : st.currentGoal? with
  | none => rfl
  | some g =>
    dsimp only
    rw [outcome_lift_bind]
    refine congrArg _ (funext fun target => ?_)
    cases target.statement? with
    | none => rfl
    | some s =>
      dsimp only
      rw [outcome_lift_bind]
      -- The goal is closed behind the last check.
      refine congrArg _ (funext fun equal => ?_)
      by_cases hequal : equal
      · simp only [hequal]
        cases st.env.find? s.relation.reflName with
        | none => rfl
        | some refl =>
          show (ChangeM.outcome (closeGoal (s.reflProof refl)) st) = _
          unfold closeGoal
          rw [outcome_get_bind, hg]
          rfl
      · simp only [hequal]
        rfl

end ProofState

end Pinpoint
