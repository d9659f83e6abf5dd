/-
Universe levels.

Level `0` is the universe of propositions.  `Level.simplify` evaluates the
parts of a level that hold no parameter, and drops a `max` with `0` or with
itself; it is the form in which the checker compares levels.  `Level.value`
gives the number that a level stands for once its parameters have values.
-/
import Pinpoint.Name

namespace Pinpoint

/-- Universe levels; `imax a b` is `0` when `b` is, and otherwise `max a b`. -/
inductive Level where
  | zero
  | succ (l : Level)
  | max (a b : Level)
  | imax (a b : Level)
  | param (name : Name)
deriving DecidableEq, Repr

namespace Level

/-- Level `1`, the universe of data. -/
def one : Level := .succ .zero

/-- The level of a number. -/
def ofNat : Nat → Level
  | 0 => .zero
  | n + 1 => .succ (ofNat n)

/-- The number of a level that is a chain of successors of `0`. -/
def toNat? : Level → Option Nat
  | .zero => some 0
  | .succ l => l.toNat?.map (· + 1)
  | _ => none

/-- Whether the level is literally `0`. -/
def isZero : Level → Bool
  | .zero => true
  | _ => false

/-- The number a level stands for when its parameters have the given
values. -/
def value (v : Name → Nat) : Level → Nat
  | .zero => 0
  | .succ l => l.value v + 1
  | .max a b => Nat.max (a.value v) (b.value v)
  | .imax a b => if b.value v = 0 then 0 else Nat.max (a.value v) (b.value v)
  | .param n => v n

/-- The larger of two simplified levels, evaluated if both are numbers. -/
def simplifyMax (a b : Level) : Level :=
  match a.toNat?, b.toNat? with
  | some x, some y => ofNat (Nat.max x y)
  | _, _ => if a.isZero then b else if b.isZero then a else if a = b then a else .max a b

/-- The impredicative maximum of two simplified levels, evaluated if the
second is `0` or both are numbers. -/
def simplifyImax (a b : Level) : Level :=
  if b.isZero then .zero
  else
    match a.toNat?, b.toNat? with
    | some x, some y => ofNat (Nat.max x y)
    | _, _ => .imax a b

/-- The level with its closed parts evaluated. -/
def simplify : Level → Level
  | .zero => .zero
  | .param n => .param n
  | .succ l => .succ l.simplify
  | .max a b => simplifyMax a.simplify b.simplify
  | .imax a b => simplifyImax a.simplify b.simplify

/-- The level with parameters replaced; of two entries for one parameter the
first counts, and a parameter without an entry stays. -/
def instantiate (subst : List (Name × Level)) : Level → Level
  | .zero => .zero
  | .succ l => .succ (l.instantiate subst)
  | .max a b => .max (a.instantiate subst) (b.instantiate subst)
  | .imax a b => .imax (a.instantiate subst) (b.instantiate subst)
  | .param n => (subst.lookup n).getD (.param n)

/-- A level as it is printed: a number if it is one, else its shape, without
parentheses. -/
def render : Level → String
  | .zero => "0"
  | .succ l =>
    match l.toNat? with
    | some n => toString (n + 1)
    | none => l.render ++ "+1"
  | .max a b => "max " ++ a.render ++ " " ++ b.render
  | .imax a b => "imax " ++ a.render ++ " " ++ b.render
  | .param n => n.render

instance : ToString Level := ⟨render⟩

@[simp] theorem toNat?_ofNat (n : Nat) : (ofNat n).toNat? = some n := by
  induction n with
  | zero => rfl
  | succ n ih => simp [ofNat, toNat?, ih]

@[simp] theorem value_ofNat (v : Name → Nat) (n : Nat) : (ofNat n).value v = n := by
  induction n with
  | zero => rfl
  | succ n ih => simp [ofNat, value, ih]

end Level

end Pinpoint
