/-
Closing goals by reflexivity.

The sides of the target have to be equal by definition without unfolding
constants.
-/
import Pinpoint.Expr.Statement
import Pinpoint.Proof.Change

namespace Pinpoint

/-- Causes for which reflexivity does not close a goal. -/
inductive ReflexivityError where
  /-- There is no goal. -/
  | noGoals
  /-- The target is neither an equation nor an equivalence. -/
  | notAnEquation (goal : Goal) (target : Expr)
  /-- The sides are not equal by definition. -/
  | sidesDiffer (goal : Goal) (lhs rhs : Expr)
  /-- The constant that proves reflexivity is not declared. -/
  | missingConstant (name : Name)
deriving DecidableEq, Repr

/-- The cause in words. -/
def ReflexivityError.message : ReflexivityError → String
  | .noGoals => "no goals"
  | .notAnEquation g target => "goal mismatch: rfl: not an equation: " ++ g.pretty target
  | .sidesDiffer g lhs rhs =>
    "goal mismatch: rfl: sides differ: " ++ g.pretty lhs ++ " and " ++ g.pretty rhs
  | .missingConstant n => "rfl: " ++ n.render ++ " not in environment"

/-- The constant that proves a relation of a term to itself. -/
def Relation.reflName : Relation → Name
  | .eq => Vocabulary.eqRefl
  | .iff => Vocabulary.iffRefl

/-- The proof that the left side of a statement is related to itself, by the
given constant. -/
def Statement.reflProof (s : Statement) (refl : Constant) : Expr :=
  match s.relation with
  | .eq =>
    let levels := if refl.levelParams.length = 1 then [s.level] else []
    .mkApp (.const Vocabulary.eqRefl levels) [s.carrier, s.lhs]
  | .iff => .mkApp (.const Vocabulary.iffRefl []) [s.lhs]

namespace ProofState

/-- The state with its first goal closed by a proof. -/
def close (st : ProofState) (g : Goal) (proof : Expr) : ProofState :=
  { st with goals := st.goals.tail, metas := st.metas.assign g.metaId proof }

end ProofState

/-- Closes the first goal with a proof. -/
def closeGoal (proof : Expr) : ChangeM ProofState ReflexivityError Unit := do
  let st ← get
  match st.currentGoal? with
  | none => throw .noGoals
  | some g => set (st.close g proof)

/-- Closes the first goal by reflexivity. -/
def closeByReflexivity (fuel : Nat) : ChangeM ProofState ReflexivityError Unit := do
  let st ← get
  match st.currentGoal? with
  | none => throw .noGoals
  | some g =>
    let target ← st.metas.instantiate? g.target
    match target.statement? with
    | none => throw (.notAnEquation g target)
    | some s =>
      if !(← st.isDefEq fuel .reducible s.lhs s.rhs) then
        throw (.sidesDiffer g s.lhs s.rhs)
      else match st.env.find? s.relation.reflName with
        | none => throw (.missingConstant s.relation.reflName)
        | some refl => closeGoal (s.reflProof refl)

/-- The state with its first goal closed by reflexivity. -/
def ProofState.rfl (fuel : Nat) (st : ProofState) : ExceptT ReflexivityError Option ProofState :=
  (closeByReflexivity fuel).outcome st

end Pinpoint
