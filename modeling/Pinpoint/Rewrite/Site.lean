/-
Statements of the current goal: finding, reading and replacing them.

Replacing takes an equation between the old statement and the new one.  At
the target it makes a new goal, whose metavariable becomes part of the value
of the old one's.  At a hypothesis it makes a new hypothesis of the same name
in the same place, with a free variable of its own; that is refused while
something refers to the old one.
-/
import Pinpoint.Expr.Metadata
import Pinpoint.Proof.Change
import Pinpoint.Rewrite.RuleSpec

namespace Pinpoint

namespace ProofState

/-- The statement at a location. -/
def resolve (st : ProofState) (loc : Location) : QueryM Site := do
  let g ← st.mainGoal
  match loc with
  | .goal => return .goal
  | .hyp n =>
    match g.findHyp? n with
    | some h => return .hyp h.fvar
    | none => throw (.hypothesisNotFound n)
  | .everywhere => throw (.replacement .noSingleStatement)

/-- The first hypothesis of a free variable. -/
def hypOf (g : Goal) (x : FVarId) : QueryM Hypothesis :=
  match g.hyps.find? fun h => h.fvar = x with
  | some h => return h
  | none => throw (.hypothesisNotFound ("_fvar." ++ toString x.id.toNat))

/-- The statement at a site. -/
def statementAt (st : ProofState) (site : Site) : QueryM Expr := do
  let g ← st.mainGoal
  match site with
  | .goal => st.metas.instantiate? g.target
  | .hyp x => do
    let h ← hypOf g x
    st.metas.instantiate? h.type

/-- A checker over the context of the current goal. -/
def mainChecker (fuel : Nat) (st : ProofState) : QueryM Checker := do
  let g ← st.mainGoal
  st.checker? fuel g

/-- Whether a free variable occurs in the type or the value of a
hypothesis. -/
def mentions (x : FVarId) (h : Hypothesis) : Bool :=
  h.type.hasFVar x || h.value.any (Expr.hasFVar x)

end ProofState

/-- Changes of a proof state by a rewrite. -/
abbrev RewriteM := ChangeM ProofState RewriteError

namespace RewriteM

open ChangeM ProofState

/-- Replaces the target of the first goal. -/
def replaceTarget (eq : Equation) : RewriteM Unit := do
  let st ← get
  let g ← ofQuery mainGoal
  let target ← st.metas.instantiate? g.target
  if !eq.lhs.eqModMData target then
    throw (.replacement (.otherTarget g eq.lhs target))
  else match eq.castGoal st.env st.metas.nextId.toExpr with
    | .error e => throw (.replacement (.cast e))
    | .ok proof =>
      -- from here on nothing can fail
      let new ← freshMeta eq.rhs
      setGoal ⟨new, eq.rhs, g.hyps⟩
      assignMeta g.metaId proof

/-- Replaces a hypothesis of the first goal. -/
def replaceHyp (x : FVarId) (eq : Equation) : RewriteM Unit := do
  let st ← get
  let g ← ofQuery mainGoal
  let h ← ofQuery fun _ => hypOf g x
  let pos := g.hyps.findIdx fun h => h.fvar = x
  let type ← st.metas.instantiate? h.type
  if !eq.lhs.eqModMData type then
    throw (.replacement (.otherHypothesis g h.name eq.lhs type))
  else if (g.hyps.eraseIdx pos).any (mentions x) || g.target.hasFVar x then
    throw (.replacement (.referenced h.name))
  else match eq.castHyp st.env (.fvar x) with
    | .error e => throw (.replacement (.cast e))
    | .ok value =>
      -- from here on nothing can fail
      let new ← freshFVar
      setHyp pos ⟨new, h.name, eq.rhs, some value⟩
      pushHypValue new value

/-- Replaces the statement at a site by the right side of an equation whose left
side it is. -/
def replace (site : Site) (eq : Equation) : RewriteM Unit :=
  match site with
  | .goal => replaceTarget eq
  | .hyp x => replaceHyp x eq

end RewriteM

namespace ProofState

/-- The state with the target of its first goal replaced. -/
def replaceTarget (st : ProofState) (eq : Equation) : QueryM ProofState :=
  (RewriteM.replaceTarget eq).outcome st

/-- The state with a hypothesis of its first goal replaced. -/
def replaceHyp (st : ProofState) (x : FVarId) (eq : Equation) : QueryM ProofState :=
  (RewriteM.replaceHyp x eq).outcome st

/-- The state with the statement at a site replaced by the right side of an
equation whose left side it is. -/
def replace (st : ProofState) (site : Site) (eq : Equation) : QueryM ProofState :=
  (RewriteM.replace site eq).outcome st

end ProofState

end Pinpoint
