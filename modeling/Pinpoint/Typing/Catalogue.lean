/-
Declared constants as they are kept.

A catalogue has a table, in which constants are looked up by their names, and the
names in the order of their declaration.  The table decides what a name stands for,
the order only how the constants are listed; `listing` is the environment with the
constants in this order, in which the terms of the next constant are checked.
-/
import Pinpoint.Change
import Pinpoint.Typing.Declaration

namespace Pinpoint

/-- Constants by name, and the names in the order of their declaration. -/
structure Catalogue where
  table : List (Name × Constant)
  order : List Name
deriving DecidableEq, Repr

namespace Catalogue

/-- The catalogue without constants. -/
def empty : Catalogue := ⟨[], []⟩

/-- The constant of a name. -/
def get? (k : Catalogue) (n : Name) : Option Constant :=
  (k.table.find? fun entry => entry.1 = n).map Prod.snd

/-- Whether a name is declared. -/
def contains (k : Catalogue) (n : Name) : Bool := (k.get? n).isSome

/-- The number of constants. -/
def size (k : Catalogue) : Nat := k.table.length

/-- The constants in the order of their declaration. -/
def constants (k : Catalogue) : List Constant := k.order.filterMap k.get?

/-- The environment with the constants of a catalogue. -/
def listing (k : Catalogue) : Environment := ⟨k.constants⟩

/-! ### Declaring constants -/

section
variable {ε : Type}

/-- Adds a name to the order. -/
def pushName (n : Name) : ChangeM Catalogue ε Unit :=
  modify fun k => { k with order := k.order ++ [n] }

/-- Puts a constant into the table, in the place of the one that has the name. -/
def insert (n : Name) (c : Constant) : ChangeM Catalogue ε Unit :=
  modify fun k => { k with table := (n, c) :: k.table.filter fun entry => entry.1 ≠ n }

end

/-- Declares a constant, once it is checked. -/
def declare (fuel : Nat) (c : Constant) : ChangeM Catalogue CheckError Unit := do
  let k ← get
  if k.contains c.name then throw (.alreadyDeclared c.name)
  else if c.type.hasLooseBVars || c.value.any Expr.hasLooseBVars then throw (.notClosed c.name)
  else
    ChangeM.ofQuery fun _ => ExceptT.mk (k.listing.checkConstant fuel c).runFresh
    -- from here on nothing can fail
    pushName c.name
    insert c.name c

/-- Declares constants in order, up to the first that is refused. -/
def declareAll (fuel : Nat) : List Constant → ChangeM Catalogue CheckError Unit
  | [] => return
  | c :: cs => do
    declare fuel c
    declareAll fuel cs

end Catalogue

end Pinpoint
