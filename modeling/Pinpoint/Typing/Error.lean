/-
What the checker of terms and declarations objects to.
-/
import Pinpoint.Expr.Printer

namespace Pinpoint

/-- Causes for which a term has no type or a declaration is refused. -/
inductive CheckError where
  /-- A constant that is not declared. -/
  | unknownConstant (name : Name)
  /-- A declaration of a name that is taken. -/
  | alreadyDeclared (name : Name)
  /-- A free variable that is not in the context. -/
  | unknownFVar (id : FVarId)
  /-- A bound variable without its binder. -/
  | looseBVar (index : UInt32)
  /-- A constant with the wrong number of universe arguments. -/
  | levelArity (name : Name) (expected actual : Nat)
  /-- A term of the given type applied to an argument. -/
  | notAFunction (type : Expr)
  /-- A term, with its type, where a type is expected. -/
  | notASort (term type : Expr)
  /-- An argument, or a value, of another type than expected. -/
  | typeMismatch (expected actual : Expr)
  /-- A declaration with loose bound variables. -/
  | notClosed (name : Name)
deriving DecidableEq, Repr

/-- The objection in words. -/
def CheckError.message : CheckError → String
  | .unknownConstant n => "unknown constant: " ++ n.render
  | .alreadyDeclared n => "constant already declared: " ++ n.render
  | .unknownFVar x => "unknown free variable: FVarId(" ++ toString x.id.toNat ++ ")"
  | .looseBVar i => "loose bound variable #" ++ toString i.toNat
  | .levelArity n expected actual =>
    "constant " ++ n.render ++ " expects " ++ toString expected ++ " universe levels, got " ++
      toString actual
  | .notAFunction t => "function expected, got term of type " ++ t.render
  | .notASort e t => "type expected, got " ++ e.render ++ " : " ++ t.render
  | .typeMismatch expected actual =>
    "type mismatch: expected " ++ expected.render ++ ", got " ++ actual.render
  | .notClosed n => "declaration " ++ n.render ++ " is not closed"

end Pinpoint
