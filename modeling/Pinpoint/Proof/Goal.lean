/-
Goals: what is left to prove, and the hypotheses it may use.
-/
import Pinpoint.Expr.Printer
import Pinpoint.Metavariable

namespace Pinpoint

/-- A hypothesis.  One that was rewritten has as value its proof from the
hypothesis that it replaces. -/
structure Hypothesis where
  fvar : FVarId
  name : String
  type : Expr
  value : Option Expr
deriving DecidableEq, Repr

/-- A goal; its proof is the value of its metavariable. -/
structure Goal where
  metaId : MetaId
  target : Expr
  hyps : List Hypothesis
deriving DecidableEq, Repr

namespace Goal

/-- The latest hypothesis of a name. -/
def findHyp? (g : Goal) (name : String) : Option Hypothesis :=
  g.hyps.reverse.find? fun h => h.name = name

/-- The name of a hypothesis, for printing. -/
def fvarName? (g : Goal) (x : FVarId) : Option Name :=
  (g.hyps.reverse.find? fun h => h.fvar = x).map fun h => .ofString h.name

/-- A term with the names of the hypotheses. -/
def pretty (g : Goal) (e : Expr) : String := e.pretty g.fvarName?

/-- The hypotheses and the target, a line each. -/
def render (g : Goal) : String :=
  String.join (g.hyps.map fun h => h.name ++ " : " ++ g.pretty h.type ++ "\n") ++
    "⊢ " ++ g.pretty g.target

end Goal

end Pinpoint
