/-
Hierarchical names such as `Eq.refl`.

A name is a list of components, outermost first; a component is a text or a
number of 64 bits.  `Name.ofString` reads a dotted text and `Name.render`
writes one; a component that reads as a numeral becomes a number, so a name
that was read may be written differently (`a.007` as `a.7`).
-/
import Pinpoint.Text.Numeral

namespace Pinpoint

/-- One component of a name. -/
inductive NamePart where
  | str (s : String)
  | num (n : UInt64)
deriving DecidableEq, Repr

/-- A hierarchical name; the name without components is the anonymous one. -/
structure Name where
  parts : List NamePart
deriving DecidableEq, Repr

namespace NamePart

/-- A numeral of 64 bits, with or without a plus sign, is a number; all else
is a text. -/
def ofChars (cs : List Char) : NamePart :=
  match Text.Numeral.parse? UInt64.size cs with
  | some n => .num (UInt64.ofNat n)
  | none => .str (String.ofList cs)

/-- A component as it is written. -/
def render : NamePart → String
  | .str s => s
  | .num n => toString n.toNat

end NamePart

namespace Name

/-- The name without components. -/
def anonymous : Name := ⟨[]⟩

/-- A name made of one text. -/
def simple (s : String) : Name := ⟨[.str s]⟩

/-- The name with one more text component. -/
def str (n : Name) (s : String) : Name := ⟨n.parts ++ [.str s]⟩

/-- The name with one more number component. -/
def num (n : Name) (k : UInt64) : Name := ⟨n.parts ++ [.num k]⟩

/-- Whether the name has no component. -/
def isAnonymous (n : Name) : Bool := n.parts.isEmpty

/-- The last component, if it is a text. -/
def lastString? (n : Name) : Option String :=
  match n.parts.getLast? with
  | some (.str s) => some s
  | _ => none

/-- The name that a dotted text spells; the empty text spells the anonymous
name. -/
def ofString (s : String) : Name :=
  match s.toList with
  | [] => anonymous
  | cs => ⟨(Text.splitAt '.' cs).map NamePart.ofChars⟩

/-- The components with dots between them. -/
def render (n : Name) : String :=
  if n.isAnonymous then "[anonymous]"
  else String.intercalate "." (n.parts.map NamePart.render)

instance : ToString Name := ⟨render⟩

@[simp] theorem parts_str (n : Name) (s : String) : (n.str s).parts = n.parts ++ [.str s] := rfl

@[simp] theorem parts_num (n : Name) (k : UInt64) : (n.num k).parts = n.parts ++ [.num k] := rfl

end Name

end Pinpoint
