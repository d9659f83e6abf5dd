/-
Where a rewrite takes place, and why it does not.
-/
import Pinpoint.Elaboration
import Pinpoint.Proof.Goal
import Pinpoint.Rewrite.Equation

namespace Pinpoint

/-- A side of an equation or an equivalence. -/
inductive Side where
  | lhs
  | rhs
deriving DecidableEq, Repr

namespace Side

/-- The name of a side. -/
def render : Side → String
  | .lhs => "lhs"
  | .rhs => "rhs"

/-- The side that a word names, or a complaint about the word. -/
def parse (word : String) : Except String Side :=
  if word = "lhs" ∨ word = "left" then .ok .lhs
  else if word = "rhs" ∨ word = "right" then .ok .rhs
  else .error ("expected \x60lhs\x60 or \x60rhs\x60, got \x60" ++ word ++ "\x60")

end Side

/-- Where a rewrite is asked for. -/
inductive Location where
  /-- The target of the current goal. -/
  | goal
  /-- The latest hypothesis of a name. -/
  | hyp (name : String)
  /-- Every hypothesis, and then the target. -/
  | everywhere
deriving DecidableEq, Repr

/-- A location as it is printed. -/
def Location.render : Location → String
  | .goal => "⊢"
  | .hyp n => n
  | .everywhere => "*"

/-- One statement of the current goal. -/
inductive Site where
  | goal
  | hyp (id : FVarId)
deriving DecidableEq, Repr

/-- Causes for which a term is no rule. -/
inductive RuleError where
  | parse (cause : Surface.ParseError)
  | elaboration (cause : ElaborationError)
  | illTyped (cause : CheckError)
  /-- The type of the term states neither an equation nor an equivalence. -/
  | notARelation (type : Expr)
deriving DecidableEq, Repr

/-- The cause in words. -/
def RuleError.message : RuleError → String
  | .parse e => e.message
  | .elaboration e => e.message
  | .illTyped e => "type check failed: " ++ e.message
  | .notARelation t => "not an equation or equivalence: " ++ t.render

/-- Causes for which a statement is not replaced. -/
inductive ReplacementError where
  /-- The equation is about another statement than the target. -/
  | otherTarget (goal : Goal) (lhs target : Expr)
  /-- The equation is about another statement than the hypothesis. -/
  | otherHypothesis (goal : Goal) (name : String) (lhs type : Expr)
  /-- The hypothesis occurs in the target or in another hypothesis. -/
  | referenced (name : String)
  /-- The cast cannot be built. -/
  | cast (cause : ProofError)
  /-- A location that is no single statement. -/
  | noSingleStatement
deriving DecidableEq, Repr

/-- The cause in words. -/
def ReplacementError.message : ReplacementError → String
  | .otherTarget g lhs target =>
    "proof rewrites " ++ g.pretty lhs ++ ", but the goal is " ++ g.pretty target
  | .otherHypothesis g n lhs type =>
    "proof rewrites " ++ g.pretty lhs ++ ", but " ++ n ++ " : " ++ g.pretty type
  | .referenced n => n ++ " is referenced by the goal or by another hypothesis"
  | .cast e => e.message
  | .noSingleStatement => "the wildcard location has no single statement"

/-- Causes for which a rewrite fails. -/
inductive RewriteError where
  /-- A rule, as it is written, that cannot be used. -/
  | rule (source : String) (cause : RuleError)
  /-- A side is asked for of a statement that has none. -/
  | notARelation (side : Side) (target : Expr)
  /-- There are fewer occurrences than asked for. -/
  | noMatch (requested found : Nat)
  /-- The occurrence cannot be rewritten. -/
  | evaluation (index : Nat) (cause : ProofError)
  /-- The rewrite of a side cannot be lifted to the whole statement. -/
  | congruence (side : Side) (cause : ProofError)
  /-- The new statement is refused. -/
  | replacement (cause : ReplacementError)
  /-- A rewrite everywhere that applied nowhere. -/
  | nothingRewritten
  /-- There is no such hypothesis. -/
  | hypothesisNotFound (name : String)
  /-- There is no goal. -/
  | noGoals
  /-- A failure at a location. -/
  | at (location : Location) (cause : RewriteError)
deriving DecidableEq, Repr

namespace RewriteError

/-- The failure without the locations around it. -/
def innermost : RewriteError → RewriteError
  | .at _ e => e.innermost
  | e => e

/-- Whether the rewrite did not apply, as opposed to going wrong. -/
def isNoMatch (e : RewriteError) : Bool :=
  match e.innermost with
  | .noMatch .. | .notARelation .. => true
  | _ => false

/-- The failure in words. -/
def message : RewriteError → String
  | .rule source e => "cannot use rule \x60" ++ source ++ "\x60: " ++ e.message
  | .notARelation side target =>
    "cannot select the " ++ side.render ++ " side of " ++ target.render ++
      ": not an equation or equivalence"
  | .noMatch requested found =>
    "occurrence " ++ toString requested ++ " requested, but the rules only match " ++
      toString found ++ " time(s)"
  | .evaluation i e => "cannot rewrite occurrence " ++ toString i ++ ": " ++ e.message
  | .congruence side e =>
    "cannot lift the rewrite through the " ++ side.render ++ " side: " ++ e.message
  | .replacement e => "cannot replace statement: " ++ e.message
  | .nothingRewritten => "nothing to rewrite: no hypothesis and not the goal"
  | .hypothesisNotFound n => "hypothesis not found: " ++ n
  | .noGoals => "no goals"
  | .at loc e => "at " ++ loc.render ++ ": " ++ e.message

/-- The failure and the causes that it names, each in words. -/
def chain : RewriteError → List String
  | e@(.at _ cause) => e.message :: cause.chain
  | e@(.evaluation _ cause) => [e.message, cause.message]
  | e@(.congruence _ cause) => [e.message, cause.message]
  | e => [e.message]

end RewriteError

end Pinpoint
