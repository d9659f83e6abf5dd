/-
The infix operators, shared by the reader and the printer of terms.

One table gives each operator its sign, the constant it stands for, and how
tightly it and its operands bind: a sum groups to the left, and neither an
equation nor an equivalence stands unparenthesised inside another.
-/
import Pinpoint.Vocabulary

namespace Pinpoint

/-- Infix operators. -/
inductive Operator where
  | eq
  | iff
  | add
  | mul
deriving DecidableEq, Repr

namespace Operator

/-- The sign between the operands. -/
def sign : Operator → String
  | .eq => "="
  | .iff => "↔"
  | .add => "+"
  | .mul => "*"

/-- The constant that is applied to the operands, after their type except
for an equivalence. -/
def constant : Operator → Name
  | .eq => Vocabulary.eq
  | .iff => Vocabulary.iff
  | .add => Vocabulary.add
  | .mul => Vocabulary.mul

/-- How tightly the operator binds. -/
def precedence : Operator → Nat
  | .iff => 20
  | .eq => 50
  | .add => 65
  | .mul => 70

/-- How tightly the left operand has to bind to stand without
parentheses. -/
def leftPrecedence : Operator → Nat
  | .iff => 21
  | .eq => 51
  | .add => 65
  | .mul => 70

/-- How tightly the right operand has to bind to stand without
parentheses. -/
def rightPrecedence : Operator → Nat
  | .iff => 21
  | .eq => 51
  | .add => 66
  | .mul => 71

/-- The operator whose constant takes a type and two operands. -/
def ofTernary? (n : Name) : Option Operator :=
  if n = Vocabulary.eq then some .eq
  else if n = Vocabulary.add then some .add
  else if n = Vocabulary.mul then some .mul
  else none

end Operator

end Pinpoint
