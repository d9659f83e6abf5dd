/-
Rules as they are given: a text, a written term or a term, and a direction.

An arrow to the left before the text turns the direction once more.
-/
import Pinpoint.Proof.State
import Pinpoint.Rewrite.Error
import Pinpoint.Surface.Parser

namespace Pinpoint

/-- Forms in which the term of a rule is given. -/
inductive RuleTerm where
  | text (s : String)
  | written (term : Surface.Term)
  | expr (e : Expr)

/-- A rule as it is given. -/
structure RuleSpec where
  term : RuleTerm
  reversed : Bool

namespace RuleSpec

/-- A rule given by a text. -/
def ofText (s : String) : RuleSpec := ⟨.text s, false⟩

/-- The rule in the other direction. -/
def reverse (spec : RuleSpec) : RuleSpec := { spec with reversed := !spec.reversed }

/-- The rule as messages show it. -/
def describe (spec : RuleSpec) : String :=
  (if spec.reversed then "← " else "") ++
    match spec.term with
    | .text s => s
    | .written _ => "<term>"
    | .expr e => e.render

end RuleSpec

/-- Questions about a proof state, which may fail. -/
abbrev QueryM := ExceptT RewriteError Option

namespace ProofState

/-- The current goal, which has to exist. -/
def mainGoal (st : ProofState) : QueryM Goal :=
  match st.currentGoal? with
  | some g => return g
  | none => throw .noGoals

/-- What a written term means to a goal, whose hypotheses it can name. -/
def elaborateIn (fuel : Nat) (st : ProofState) (g : Goal) (t : Surface.Term) :
    Option (Except ElaborationError Expr) := do
  let Γ ← st.hypContext? g
  Elaboration.runFresh (Elaboration.elaborate st.env fuel Γ t)

/-- The term of a rule, and whether the rule is reversed. -/
def ruleTerm (fuel : Nat) (st : ProofState) (g : Goal) (spec : RuleSpec) :
    ExceptT RuleError Option (Expr × Bool) :=
  match spec.term with
  | .text s =>
    match Surface.Rule.parse s with
    | .error e => throw (.parse e)
    | .ok r => do
      match ← st.elaborateIn fuel g r.term with
      | .error e => throw (.elaboration e)
      | .ok proof => return (proof, spec.reversed != r.reversed)
  | .written t => do
    match ← st.elaborateIn fuel g t with
    | .error e => throw (.elaboration e)
    | .ok proof => return (proof, spec.reversed)
  | .expr e => return (e, spec.reversed)

/-- The rule that is given, or why there is none. -/
def elaborateRule (fuel : Nat) (st : ProofState) (g : Goal) (spec : RuleSpec) :
    ExceptT RuleError Option Rule := do
  let (proof, reversed) ← st.ruleTerm fuel g spec
  match ← st.inferType fuel g proof with
  | .error e => throw (.illTyped e)
  | .ok type =>
    match Rule.ofProof? proof type reversed spec.describe with
    | none => throw (.notARelation type)
    | some r => return r

/-- The rules that are given; the first that cannot be used is reported. -/
def elaborateRules (fuel : Nat) (st : ProofState) (g : Goal) (specs : List RuleSpec) :
    QueryM (List Rule) :=
  specs.mapM fun spec =>
    ExceptT.adapt (RewriteError.rule spec.describe) (st.elaborateRule fuel g spec)

end ProofState

end Pinpoint
