/-
Declaring constants.

A constant enters the environment if its name is free, its type and value are
closed, its type has a universe, and its value has that type.
-/
import Pinpoint.Typing.Inference

namespace Pinpoint.Environment

/-- Checks the type, and then the value, of a constant. -/
def checkConstant (env : Environment) (fuel : Nat) (c : Constant) : CheckM Unit := do
  let checker : Checker := ⟨env, .empty, fuel⟩
  let _ ← checker.ensureSort c.type
  match c.value with
  | none => return
  | some v =>
    let valueType ← checker.inferType v
    unless ← checker.isDefEq .all valueType c.type do throw (.typeMismatch c.type valueType)

/-- The environment with one more constant, once it is checked. -/
def declare (env : Environment) (fuel : Nat) (c : Constant) :
    Option (Except CheckError Environment) :=
  if env.contains c.name then some (.error (.alreadyDeclared c.name))
  else if c.type.hasLooseBVars || c.value.any Expr.hasLooseBVars then
    some (.error (.notClosed c.name))
  else (env.checkConstant fuel c).runFresh.map fun r => r.map fun _ => env.push c

/-- Declares constants in order, up to the first that is refused; those
before it stay declared. -/
def declareAll (env : Environment) (fuel : Nat) :
    List Constant → Option (Environment × Except CheckError Unit)
  | [] => some (env, .ok ())
  | c :: cs => do
    match ← env.declare fuel c with
    | .ok env' => declareAll env' fuel cs
    | .error e => return (env, .error e)

end Pinpoint.Environment
