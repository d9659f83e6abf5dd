/-
The part of a statement that is searched, and the way back from a rewrite of
the part to a rewrite of the statement.
-/
import Pinpoint.Rewrite.Error
import Pinpoint.Rewrite.Matching

namespace Pinpoint

/-- What is searched: a whole statement, or one side of it. -/
structure Scope where
  host : Expr
  /-- The type of what is searched. -/
  type : Expr
  /-- The universe of an equation in that type. -/
  level : Level
  /-- The side, and the statement that it is a side of. -/
  side : Option (Side × Statement)
deriving DecidableEq, Repr

namespace Scope

/-- The whole of a statement. -/
def whole (target : Expr) : Scope := ⟨target, .prop, .one, none⟩

/-- One side of a statement. -/
def ofSide (s : Statement) : Side → Scope
  | .lhs => ⟨s.lhs, s.carrier, s.level, some (.lhs, s)⟩
  | .rhs => ⟨s.rhs, s.carrier, s.level, some (.rhs, s)⟩

/-- The side of a statement, or the whole of it if no side is asked for. -/
def select (target : Expr) : Option Side → Except RewriteError Scope
  | none => .ok (whole target)
  | some side =>
    match target.statement? with
    | some s => .ok (ofSide s side)
    | none => .error (.notARelation side target)

/-- The equation between what is searched and the same with the match
rewritten. -/
def evaluate (env : Environment) (scope : Scope) (r : Rule) (m : Match) :
    Except ProofError Equation := do
  let eq ← r.instantiate env m.subst
  if m.path.isEmpty then return eq
  else
    match scope.host.abstractAt? m.path with
    | none => throw (.noSubterm m.path scope.host)
    | some body => eq.congruence env (.lam .default eq.carrier body) scope.type scope.level

/-- From an equation between sides to one between statements. -/
def lift (env : Environment) (s : Statement) (eq : Equation) : Side → Except ProofError Equation
  | .lhs => eq.congruence env (.lam .default s.carrier (s.rebuild (.bvar 0) s.rhs)) .prop .one
  | .rhs => eq.congruence env (.lam .default s.carrier (s.rebuild s.lhs (.bvar 0))) .prop .one

end Scope

end Pinpoint
