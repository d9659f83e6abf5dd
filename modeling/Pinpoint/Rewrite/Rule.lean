/-
Rewrite rules.

A rule is a proof of an equation or an equivalence under universal
quantifiers.  The quantified variables are the variables of its pattern; in
the sides they stay bound variables without a binder, the last one with index
`0`.
-/
import Pinpoint.Expr.Statement
import Pinpoint.Typing.Error

namespace Pinpoint

/-- The types of the variables that a type quantifies over, the outermost
first, and what it says about them; metadata between the quantifiers and
around the rest is dropped. -/
def Expr.telescope : Expr → List Expr × Expr
  | .mdata _ e => e.telescope
  | .pi _ dom body => (dom :: body.telescope.1, body.telescope.2)
  | e => ([], e)

/-- A rule that is ready to be used. -/
structure Rule where
  /-- Proof of the quantified statement. -/
  proof : Expr
  /-- Types of the variables, the outermost first. -/
  varTypes : List Expr
  /-- What is stated of the variables. -/
  statement : Statement
  /-- Whether the right side is rewritten to the left one. -/
  reversed : Bool
  /-- How the rule was written. -/
  source : String
deriving DecidableEq, Repr

namespace Rule

/-- The rule that a proof of the given type is; none if the type states
neither an equation nor an equivalence. -/
def ofProof? (proof type : Expr) (reversed : Bool) (source : String) : Option Rule :=
  let (varTypes, body) := type.telescope
  body.statement?.map fun statement => ⟨proof, varTypes, statement, reversed, source⟩

/-- The number of variables. -/
def numVars (r : Rule) : Nat := r.varTypes.length

/-- The side that is looked for. -/
def pattern (r : Rule) : Expr := if r.reversed then r.statement.rhs else r.statement.lhs

/-- The side that takes its place. -/
def replacement (r : Rule) : Expr := if r.reversed then r.statement.lhs else r.statement.rhs

end Rule

end Pinpoint
