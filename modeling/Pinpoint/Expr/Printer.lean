/-
Terms as text.

A term is printed in the notation that the reader of terms accepts, with as
few parentheses as the precedences allow.  Bound variables get names that
count the binders around them (`x`, `x_1`, `x_2`, …); a free variable is
printed by the name given for it, and a bound variable without a binder by its
index.
-/
import Pinpoint.Expr.Binding
import Pinpoint.Operator
import Pinpoint.Text.Quoted

namespace Pinpoint

namespace Precedence

/-- Binders and definitions. -/
def binder : Nat := 0
/-- Function types. -/
def arrow : Nat := 25
/-- Applications, and the places where one may stand unparenthesised. -/
def app : Nat := 1024
/-- Arguments of an application. -/
def arg : Nat := 1025

end Precedence

/-- Parentheses around a text, if they are needed. -/
def parenthesize (needed : Bool) (s : String) : String :=
  if needed then "(" ++ s ++ ")" else s

/-- A universe as it is printed where at least `prec` is asked for. -/
def Level.renderSort (l : Level) (prec : Nat) : String :=
  let l := l.simplify
  match l.toNat? with
  | some 0 => "Prop"
  | some 1 => "Type"
  | _ =>
    let text :=
      match l with
      | .succ inner => "Type " ++ inner.render
      | l => "Sort " ++ l.render
    parenthesize (Precedence.app < prec) text

namespace Expr

/-- The operator and its operands, if the term is an operator's constant with
all its arguments. -/
def operation? : Expr → Option (Operator × Expr × Expr)
  | .app (.app (.app (.const n _) _) a) b => (Operator.ofTernary? n).map (·, a, b)
  | .app (.app (.const n _) a) b => if n = Vocabulary.iff then some (.iff, a, b) else none
  | _ => none

/-- Operands are smaller than the operation. -/
theorem sizeOf_lt_of_operation? {e a b : Expr} {op : Operator}
    (h : e.operation? = some (op, a, b)) : sizeOf a < sizeOf e ∧ sizeOf b < sizeOf e := by
  unfold operation? at h
  split at h
  · obtain ⟨o, -, ho⟩ := Option.map_eq_some_iff.mp h
    cases ho
    constructor <;> (simp only [app.sizeOf_spec]; omega)
  · split at h
    · cases h
      constructor <;> (simp only [app.sizeOf_spec]; omega)
    · cases h
  · cases h

/-- The name of the next bound variable, by the number of binders around
it. -/
def binderName (depth : Nat) : String :=
  if depth = 0 then "x" else "x_" ++ toString depth

/-- A term as it is printed where at least `prec` is asked for, under binders
named `binders`, the innermost first. -/
def write (names : FVarId → Option Name) (binders : List String) (prec : Nat) (e : Expr) :
    String :=
  match _h : e.operation? with
  | some (op, a, b) =>
    parenthesize (op.precedence < prec)
      (write names binders op.leftPrecedence a ++ " " ++ op.sign ++ " " ++
        write names binders op.rightPrecedence b)
  | none =>
    match e with
    | .bvar i => (binders[i.toNat]?).getD ("#" ++ toString i.toNat)
    | .fvar x =>
      match names x with
      | some n => n.render
      | none => "_fvar." ++ toString x.id.toNat
    | .sort l => l.renderSort prec
    | .const n _ => n.render
    | .lit (.nat n) => toString n.toNat
    | .lit (.str s) => Text.quote s
    | .mdata _ e => write names binders prec e
    | .app f a =>
      parenthesize (Precedence.app < prec)
        (write names binders Precedence.app f ++ " " ++ write names binders Precedence.arg a)
    | .pi _ t b =>
      if b.hasLooseBVarInRange 0 1 then
        let x := binderName binders.length
        parenthesize (Precedence.binder < prec)
          ("∀ (" ++ x ++ " : " ++ write names binders Precedence.binder t ++ "), " ++
            write names (x :: binders) Precedence.binder b)
      else
        parenthesize (Precedence.arrow < prec)
          (write names binders (Precedence.arrow + 1) t ++ " → " ++
            write names ("_" :: binders) Precedence.arrow b)
    | .lam _ t b =>
      let x := binderName binders.length
      parenthesize (Precedence.binder < prec)
        ("fun (" ++ x ++ " : " ++ write names binders Precedence.binder t ++ ") => " ++
          write names (x :: binders) Precedence.binder b)
    | .letE t v b =>
      let x := binderName binders.length
      parenthesize (Precedence.binder < prec)
        ("let " ++ x ++ " : " ++ write names binders Precedence.binder t ++ " := " ++
          write names binders Precedence.binder v ++ "; " ++
          write names (x :: binders) Precedence.binder b)
termination_by sizeOf e
decreasing_by
  all_goals first
    | exact (sizeOf_lt_of_operation? _h).1
    | exact (sizeOf_lt_of_operation? _h).2
    | (simp; omega)
    | simp

/-- A term with names for its free variables. -/
def pretty (e : Expr) (names : FVarId → Option Name) : String :=
  e.write names [] Precedence.binder

/-- A term with every free variable printed by its number. -/
def render (e : Expr) : String := e.pretty fun _ => none

end Expr

instance : ToString Expr := ⟨Expr.render⟩

end Pinpoint
