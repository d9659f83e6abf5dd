/-
Names, levels and terms in JSON.

An alternative is an object with one member: its name, and what belongs to it;
one with several parts gives them in an array, and one without parts is just
its name.  Reading expects the canonical spelling of texts, which writing
produces.
-/
import Pinpoint.Expr.Basic
import Pinpoint.Json.Canonical
import Pinpoint.Text.Numeral

namespace Pinpoint

namespace Json

/-- A natural number below a bound, written in digits alone. -/
def natBelow? (bound : Nat) : Json → Option Nat
  | .number t => Text.Numeral.digits? bound t.toList
  | _ => none

/-- A number of 32 bits. -/
def word32? (j : Json) : Option UInt32 := (j.natBelow? UInt32.size).map UInt32.ofNat

/-- A number of 64 bits. -/
def word64? (j : Json) : Option UInt64 := (j.natBelow? UInt64.size).map UInt64.ofNat

/-- A truth value. -/
def bool? : Json → Option Bool
  | .bool b => some b
  | _ => none

/-- The items of an array. -/
def array? : Json → Option (List Json)
  | .array vs => some vs
  | _ => none

/-- An array of values of one kind. -/
def listOf? {α : Type} (item : Json → Option α) (j : Json) : Option (List α) := do
  (← j.array?).mapM item

/-- An array of two values. -/
def pairOf? {α β : Type} (first : Json → Option α) (second : Json → Option β) :
    Json → Option (α × β)
  | .array [a, b] => do return (← first a, ← second b)
  | _ => none

/-- A number of 64 bits. -/
def ofWord (n : UInt64) : Json := .ofNat n.toNat

/-- An alternative with what belongs to it. -/
def tagged (tag : String) (v : Json) : Json := .object [(tag, v)]

end Json

/-! ### Reading -/

/-- The component of a name. -/
def NamePart.ofJson? : Json → Option NamePart
  | .object [("Str", s)] => s.string?.map .str
  | .object [("Num", k)] => k.word64?.map .num
  | _ => none

/-- A name, as the list of its components. -/
def Name.ofJson? (j : Json) : Option Name := (j.listOf? NamePart.ofJson?).map Name.mk

/-- A universe level. -/
def Level.ofJson? : Json → Option Level
  | .text "Zero" => some .zero
  | .object [("Zero", .null)] => some .zero
  | .object [("Succ", l)] => (ofJson? l).map .succ
  | .object [("Max", .array [a, b])] => do return .max (← ofJson? a) (← ofJson? b)
  | .object [("IMax", .array [a, b])] => do return .imax (← ofJson? a) (← ofJson? b)
  | .object [("Param", n)] => (Name.ofJson? n).map .param
  | _ => none

/-- How the argument of a binder is supplied. -/
def BinderInfo.ofJson? : Json → Option BinderInfo
  | .text "Default" => some .default
  | .text "Implicit" => some .implicit
  | .text "InstImplicit" => some .instImplicit
  | .object [("Default", .null)] => some .default
  | .object [("Implicit", .null)] => some .implicit
  | .object [("InstImplicit", .null)] => some .instImplicit
  | _ => none

/-- A literal. -/
def Literal.ofJson? : Json → Option Literal
  | .object [("Nat", n)] => n.word64?.map .nat
  | .object [("String", s)] => s.string?.map .str
  | _ => none

/-- A value of metadata. -/
def MDataValue.ofJson? : Json → Option MDataValue
  | .object [("Bool", b)] => b.bool?.map .bool
  | .object [("Nat", n)] => n.word64?.map .nat
  | .object [("String", s)] => s.string?.map .str
  | .object [("Name", n)] => (Name.ofJson? n).map .name
  | _ => none

/-- Metadata, as a list of pairs. -/
def mdataOfJson? (j : Json) : Option (List (Name × MDataValue)) :=
  j.listOf? (Json.pairOf? Name.ofJson? MDataValue.ofJson?)

/-- A term. -/
def Expr.ofJson? : Json → Option Expr
  | .object [("BVar", i)] => i.word32?.map .bvar
  | .object [("FVar", x)] => x.word64?.map fun x => .fvar ⟨x⟩
  | .object [("Sort", l)] => (Level.ofJson? l).map .sort
  | .object [("Const", .array [n, ls])] => do
    return .const (← Name.ofJson? n) (← ls.listOf? Level.ofJson?)
  | .object [("App", .array [f, a])] => do return .app (← ofJson? f) (← ofJson? a)
  | .object [("Lam", .array [i, t, b])] => do
    return .lam (← BinderInfo.ofJson? i) (← ofJson? t) (← ofJson? b)
  | .object [("Pi", .array [i, t, b])] => do
    return .pi (← BinderInfo.ofJson? i) (← ofJson? t) (← ofJson? b)
  | .object [("Let", .array [t, v, b])] => do
    return .letE (← ofJson? t) (← ofJson? v) (← ofJson? b)
  | .object [("Lit", v)] => (Literal.ofJson? v).map .lit
  | .object [("MData", .array [m, e])] => do return .mdata (← mdataOfJson? m) (← ofJson? e)
  | _ => none

/-! ### Writing -/

open Json (tagged ofWord)

/-- The component of a name in JSON. -/
def NamePart.toJson : NamePart → Json
  | .str s => tagged "Str" (.ofString s)
  | .num k => tagged "Num" (ofWord k)

/-- A name in JSON. -/
def Name.toJson (n : Name) : Json := .array (n.parts.map NamePart.toJson)

/-- A universe level in JSON. -/
def Level.toJson : Level → Json
  | .zero => .text "Zero"
  | .succ l => tagged "Succ" l.toJson
  | .max a b => tagged "Max" (.array [a.toJson, b.toJson])
  | .imax a b => tagged "IMax" (.array [a.toJson, b.toJson])
  | .param n => tagged "Param" n.toJson

/-- How the argument of a binder is supplied, in JSON. -/
def BinderInfo.toJson : BinderInfo → Json
  | .default => .text "Default"
  | .implicit => .text "Implicit"
  | .instImplicit => .text "InstImplicit"

/-- A literal in JSON. -/
def Literal.toJson : Literal → Json
  | .nat n => tagged "Nat" (ofWord n)
  | .str s => tagged "String" (.ofString s)

/-- A value of metadata in JSON. -/
def MDataValue.toJson : MDataValue → Json
  | .bool b => tagged "Bool" (.bool b)
  | .nat n => tagged "Nat" (ofWord n)
  | .str s => tagged "String" (.ofString s)
  | .name n => tagged "Name" n.toJson

/-- Metadata in JSON. -/
def mdataToJson (m : List (Name × MDataValue)) : Json :=
  .array (m.map fun (n, v) => .array [n.toJson, v.toJson])

/-- A term in JSON. -/
def Expr.toJson : Expr → Json
  | .bvar i => tagged "BVar" (.ofNat i.toNat)
  | .fvar x => tagged "FVar" (ofWord x.id)
  | .sort l => tagged "Sort" l.toJson
  | .const n ls => tagged "Const" (.array [n.toJson, .array (ls.map Level.toJson)])
  | .app f a => tagged "App" (.array [f.toJson, a.toJson])
  | .lam i t b => tagged "Lam" (.array [i.toJson, t.toJson, b.toJson])
  | .pi i t b => tagged "Pi" (.array [i.toJson, t.toJson, b.toJson])
  | .letE t v b => tagged "Let" (.array [t.toJson, v.toJson, b.toJson])
  | .lit v => tagged "Lit" v.toJson
  | .mdata m e => tagged "MData" (.array [mdataToJson m, e.toJson])

end Pinpoint
