/-
Equations and equivalences taken apart.

`Expr.statement?` recognises `Eq α a b` and `Iff a b` under metadata;
`Statement.rebuild` puts the same relation around new sides.
-/
import Pinpoint.Expr.Basic

namespace Pinpoint

/-- The two relations that can be rewritten with. -/
inductive Relation where
  | eq
  | iff
deriving DecidableEq, Repr

/-- The sign of a relation. -/
def Relation.render : Relation → String
  | .eq => "="
  | .iff => "↔"

/-- `Eq.{level} type lhs rhs`. -/
def Expr.mkEq (level : Level) (type lhs rhs : Expr) : Expr :=
  .mkApp (.const Vocabulary.eq [level]) [type, lhs, rhs]

/-- `Iff lhs rhs`. -/
def Expr.mkIff (lhs rhs : Expr) : Expr :=
  .mkApp (.const Vocabulary.iff []) [lhs, rhs]

/-- A statement `lhs R rhs`.  The carrier is the type of both sides, and the
level the one that an equation between them takes: for an equivalence, the
propositions and `1`. -/
structure Statement where
  relation : Relation
  level : Level
  carrier : Expr
  lhs : Expr
  rhs : Expr
deriving DecidableEq, Repr

namespace Statement

/-- The same relation between new sides. -/
def rebuild (s : Statement) (lhs rhs : Expr) : Expr :=
  match s.relation with
  | .eq => .mkEq s.level s.carrier lhs rhs
  | .iff => .mkIff lhs rhs

/-- The statement as a term. -/
def toExpr (s : Statement) : Expr := s.rebuild s.lhs s.rhs

end Statement

/-- An equation with one universe argument or an equivalence, under metadata,
taken apart. -/
def Expr.statement? (e : Expr) : Option Statement :=
  let e := e.stripMData
  match e.appFn, e.appArgs with
  | .const n ls, [α, a, b] =>
    if n = Vocabulary.eq then
      match ls with
      | [l] => some ⟨.eq, l, α, a, b⟩
      | _ => none
    else none
  | .const n _, [a, b] => if n = Vocabulary.iff then some ⟨.iff, .one, .prop, a, b⟩ else none
  | _, _ => none

end Pinpoint
