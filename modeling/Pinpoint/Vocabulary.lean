/-
The names of the constants that terms, proofs and operators are built from.
-/
import Pinpoint.Name

namespace Pinpoint.Vocabulary

/-- Equality. -/
def eq : Name := .simple "Eq"
/-- Reflexivity of equality. -/
def eqRefl : Name := eq.str "refl"
/-- Symmetry of equality. -/
def eqSymm : Name := eq.str "symm"
/-- Cast along an equality, from left to right. -/
def eqMp : Name := eq.str "mp"
/-- Cast along an equality, from right to left. -/
def eqMpr : Name := eq.str "mpr"
/-- Congruence of a function. -/
def congrArg : Name := .simple "congrArg"
/-- Equivalence of propositions. -/
def iff : Name := .simple "Iff"
/-- Reflexivity of equivalence. -/
def iffRefl : Name := iff.str "refl"
/-- Symmetry of equivalence. -/
def iffSymm : Name := iff.str "symm"
/-- Equivalent propositions are equal. -/
def propext : Name := .simple "propext"
/-- The natural numbers. -/
def nat : Name := .simple "Nat"
/-- Zero. -/
def natZero : Name := nat.str "zero"
/-- The successor function. -/
def natSucc : Name := nat.str "succ"
/-- Texts. -/
def string : Name := .simple "String"
/-- Addition in any type. -/
def add : Name := (Name.simple "Add").str "add"
/-- Multiplication in any type. -/
def mul : Name := (Name.simple "Mul").str "mul"

end Pinpoint.Vocabulary
