/-
Local contexts: free variables with their names and types.

The latest entry hides earlier ones of the same variable or the same name.
-/
import Pinpoint.Expr.Basic

namespace Pinpoint

/-- A free variable, its name and its type. -/
structure LocalEntry where
  fvar : FVarId
  name : Name
  type : Expr
deriving DecidableEq, Repr

/-- Free variables in scope, the latest first. -/
structure LocalContext where
  entries : List LocalEntry
deriving DecidableEq, Repr

namespace LocalContext

/-- The context without variables. -/
def empty : LocalContext := ⟨[]⟩

/-- The context with one more variable. -/
def push (Γ : LocalContext) (fvar : FVarId) (name : Name) (type : Expr) : LocalContext :=
  ⟨⟨fvar, name, type⟩ :: Γ.entries⟩

/-- The context without its latest variable. -/
def pop (Γ : LocalContext) : LocalContext := ⟨Γ.entries.tail⟩

/-- The latest entry of a free variable. -/
def find? (Γ : LocalContext) (x : FVarId) : Option LocalEntry :=
  Γ.entries.find? fun entry => entry.fvar = x

/-- The latest entry whose name is written like the given text. -/
def findName? (Γ : LocalContext) (text : String) : Option LocalEntry :=
  Γ.entries.find? fun entry => entry.name.render = text

/-- The entries, the earliest first. -/
def toList (Γ : LocalContext) : List LocalEntry := Γ.entries.reverse

theorem find?_push (Γ : LocalContext) (x y : FVarId) (n : Name) (t : Expr) :
    (Γ.push x n t).find? y = if x = y then some ⟨x, n, t⟩ else Γ.find? y := by
  simp only [push, find?, List.find?_cons]
  by_cases h : x = y <;> simp [h]

end LocalContext

end Pinpoint
