/-
Steps of the changes of a proof state.

Each of them sets one part of the state and never fails.
-/
import Pinpoint.Change
import Pinpoint.Proof.State

namespace Pinpoint.ProofState

variable {ε : Type}

/-- Makes a metavariable, which has no value yet. -/
def freshMeta (type : Expr) : ChangeM ProofState ε MetaId := do
  let new := (← get).metas.nextId
  modify fun st => { st with metas := st.metas.push type }
  return new

/-- Gives a metavariable a value. -/
def assignMeta (m : MetaId) (value : Expr) : ChangeM ProofState ε Unit :=
  modify fun st => { st with metas := st.metas.assign m value }

/-- Makes a free variable for a rewritten hypothesis. -/
def freshFVar : ChangeM ProofState ε FVarId := do
  let new := (← get).nextFVar
  modify fun st => { st with nextFVar := new + 1 }
  return ⟨new⟩

/-- Keeps the value of a rewritten hypothesis. -/
def pushHypValue (x : FVarId) (value : Expr) : ChangeM ProofState ε Unit :=
  modify fun st => { st with hypValues := st.hypValues ++ [(x, value)] }

/-- Puts another goal in the place of the first one. -/
def setGoal (g : Goal) : ChangeM ProofState ε Unit :=
  modify fun st => { st with goals := st.goals.set 0 g }

/-- Puts another hypothesis in a place of the first goal. -/
def setHyp (pos : Nat) (h : Hypothesis) : ChangeM ProofState ε Unit :=
  modify fun st =>
    { st with goals := st.goals.modify 0 fun g => { g with hyps := g.hyps.set pos h } }

end Pinpoint.ProofState
