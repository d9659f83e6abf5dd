/-
Environments: the declared constants, in the order of their declaration.

A constant has a type, and a value if it is a definition; both may mention
its universe parameters, which a use of the constant instantiates.
-/
import Pinpoint.Typing.Error

namespace Pinpoint

/-- A declared constant; one without a value is an axiom. -/
structure Constant where
  name : Name
  levelParams : List Name
  type : Expr
  value : Option Expr
deriving DecidableEq, Repr

namespace Constant

/-- The universe parameters with the levels of a use, which have to be as
many. -/
def levelSubst (c : Constant) (levels : List Level) : Except CheckError (List (Name × Level)) :=
  if levels.length = c.levelParams.length then .ok (c.levelParams.zip levels)
  else .error (.levelArity c.name c.levelParams.length levels.length)

/-- The type at the given levels. -/
def instantiateType (c : Constant) (levels : List Level) : Except CheckError Expr :=
  (c.levelSubst levels).map c.type.instantiateLevels

/-- The value at the given levels, if there is one. -/
def instantiateValue (c : Constant) (levels : List Level) : Except CheckError (Option Expr) :=
  (c.levelSubst levels).map fun s => c.value.map (Expr.instantiateLevels s)

end Constant

/-- The constants declared so far, the first one first. -/
structure Environment where
  constants : List Constant
deriving DecidableEq, Repr

namespace Environment

/-- The environment without constants. -/
def empty : Environment := ⟨[]⟩

/-- The constant of a name. -/
def find? (env : Environment) (n : Name) : Option Constant :=
  env.constants.find? fun c => c.name = n

/-- Whether a name is declared. -/
def contains (env : Environment) (n : Name) : Bool := (env.find? n).isSome

/-- The environment with one more constant, which is not checked. -/
def push (env : Environment) (c : Constant) : Environment := ⟨env.constants ++ [c]⟩

/-- The value that a constant unfolds to, if it is a definition used with as
many levels as it has parameters. -/
def value? (env : Environment) (n : Name) (levels : List Level) : Option Expr := do
  let c ← env.find? n
  let v ← (c.instantiateValue levels).toOption
  v

@[simp] theorem constants_push (env : Environment) (c : Constant) :
    (env.push c).constants = env.constants ++ [c] := rfl

/-- A constant that is found has the name that was asked for. -/
theorem name_of_find? {env : Environment} {n : Name} {c : Constant}
    (h : env.find? n = some c) : c.name = n := by
  simpa using List.find?_some h

end Environment

end Pinpoint
