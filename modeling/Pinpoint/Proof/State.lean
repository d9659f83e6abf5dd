/-
Proof states.

A state has goals, the first of which is the one that is worked on, and the
metavariables whose values make up the proof.  A hypothesis that was rewritten
has a free variable of its own; `unfoldHyps` expresses it by the hypotheses
that the proof began with.
-/
import Pinpoint.LocalContext
import Pinpoint.Proof.Goal
import Pinpoint.Typing.Inference

namespace Pinpoint

/-- A proof under construction. -/
structure ProofState where
  env : Environment
  goals : List Goal
  metas : MetaContext
  /-- The free variable of the next rewritten hypothesis. -/
  nextFVar : UInt64
  /-- The values of rewritten hypotheses, the latest last. -/
  hypValues : List (FVarId × Expr)
deriving DecidableEq, Repr

namespace ProofState

/-- A proof of `target` from hypotheses, with nothing done yet. -/
def start (env : Environment) (target : Expr) (hyps : List Hypothesis) : ProofState where
  env
  goals := [⟨MetaContext.empty.nextId, target, hyps⟩]
  metas := MetaContext.empty.push target
  nextFVar := (hyps.map fun h => h.fvar.id + 1).foldl max 0
  hypValues := []

/-- The goal that is worked on. -/
def currentGoal? (st : ProofState) : Option Goal := st.goals.head?

/-- Whether no goal is left. -/
def isComplete (st : ProofState) : Bool := st.goals.isEmpty

/-- The hypotheses of the current goal, in order. -/
def hypotheses (st : ProofState) : List (String × FVarId) :=
  match st.goals with
  | [] => []
  | g :: _ => g.hyps.map fun h => (h.name, h.fvar)

/-! ### The proof -/

/-- The value of the metavariable that the proof began with. -/
def root? (st : ProofState) : Option Expr := st.metas.value? ⟨0⟩

/-- A term with rewritten hypotheses replaced by their values. -/
def unfoldHyps (st : ProofState) (e : Expr) : Expr :=
  st.hypValues.reverse.foldl (fun e (x, v) => e.substFVar x v) e

/-- The proof, once it is complete, with holes for the goals between. -/
def proofTerm? (st : ProofState) : Option Expr := if st.isComplete then st.root? else none

/-- The proof so far, with holes for the goals that are left. -/
def partialProof? (st : ProofState) : Option (Option Expr) :=
  match st.root? with
  | none => some none
  | some e => (st.metas.instantiate? e).map fun e => some (st.unfoldHyps e)

/-- The complete proof from the hypotheses that it began with. -/
def instantiatedProof? (st : ProofState) : Option (Option Expr) :=
  if st.isComplete then st.partialProof? else some none

/-! ### Contexts -/

/-- The hypotheses of a goal as a context. -/
def hypContext? (st : ProofState) (g : Goal) : Option LocalContext :=
  g.hyps.foldlM (fun Γ h => do
    return Γ.push h.fvar (.ofString h.name) (← st.metas.instantiate? h.type)) .empty

/-- A context with all metavariables added. -/
def addMetas? (st : ProofState) (Γ : LocalContext) : Option LocalContext :=
  st.metas.toList.foldlM (fun Γ (m, v) => do
    return Γ.push m.toFVar (.ofString ("?m" ++ toString m.index.toNat))
      (← st.metas.instantiate? v.type)) Γ

/-- The hypotheses of a goal and all metavariables as a context. -/
def localContext? (st : ProofState) (g : Goal) : Option LocalContext := do
  st.addMetas? (← st.hypContext? g)

/-- A checker over the context of a goal. -/
def checker? (fuel : Nat) (st : ProofState) (g : Goal) : Option Checker := do
  return ⟨st.env, ← st.localContext? g, fuel⟩

/-- The type of a term in a goal. -/
def inferType (fuel : Nat) (st : ProofState) (g : Goal) (e : Expr) :
    Option (Except CheckError Expr) := do
  let checker ← st.checker? fuel g
  match ← (checker.inferType (← st.metas.instantiate? e)).runFresh with
  | .ok type => return .ok (← st.metas.instantiate? type)
  | .error err => return .error err

/-- Whether two terms are equal by definition in a goal. -/
def isDefEq (fuel : Nat) (st : ProofState) (t : Transparency) (a b : Expr) : Option Bool := do
  st.env.isDefEq t fuel (← st.metas.instantiate? a) (← st.metas.instantiate? b)

/-! ### Printing -/

/-- The goals, with an empty line between them. -/
def render (st : ProofState) : String :=
  if st.isComplete then "no goals"
  else String.intercalate "\n\n" (st.goals.map Goal.render)

end ProofState

end Pinpoint
