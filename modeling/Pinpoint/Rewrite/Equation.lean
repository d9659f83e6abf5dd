/-
Proofs of equations, from which a rewrite is put together.

* `Rule.instantiate`: the rule at given values of its variables, turned so
  that it proves that the pattern equals the replacement;
* `Equation.congruence`: the equation lifted through a function;
* `Equation.castGoal` and `Equation.castHyp`: the step from a new goal to the
  old one, and from an old hypothesis to the new one.

An equivalence becomes an equation between propositions, so only equations are
lifted and used.
-/
import Pinpoint.Environment
import Pinpoint.Expr.Position
import Pinpoint.Rewrite.Rule

namespace Pinpoint

/-- Causes for which a proof cannot be built. -/
inductive ProofError where
  /-- A constant that the proof needs is not declared. -/
  | missingConstant (name : Name)
  /-- A variable of the rule has no value. -/
  | undeterminedVariable (index : Nat)
  /-- An equation that is not one between propositions is used as a cast. -/
  | expectedEquality
  /-- A term that is not a function is used to lift an equation. -/
  | notAMotive (e : Expr)
  /-- There is nothing at the position where a rewrite should take place. -/
  | noSubterm (path : Path) (host : Expr)
deriving DecidableEq, Repr

/-- The cause in words. -/
def ProofError.message : ProofError → String
  | .missingConstant n => "constant " ++ n.render ++ " is not declared"
  | .undeterminedVariable i =>
    "pattern variable #" ++ toString i ++ " is not determined by the match"
  | .expectedEquality => "expected an equation between propositions"
  | .notAMotive e => "not a motive: " ++ e.render
  | .noSubterm p host => "not a motive: no subterm at " ++ p.render ++ " of " ++ host.render

/-- A proof of `lhs = rhs` in the type `carrier` of the universe `level`. -/
structure Equation where
  level : Level
  carrier : Expr
  lhs : Expr
  rhs : Expr
  proof : Expr
deriving DecidableEq, Repr

/-- A constant of the vocabulary, which has to be declared. -/
def Environment.constant (env : Environment) (n : Name) (levels : List Level) :
    Except ProofError Expr :=
  if env.contains n then .ok (.const n levels) else .error (.missingConstant n)

/-- The values of all variables, of which the first without one is
reported. -/
def allDetermined (subst : List (Option Expr)) : Except ProofError (List Expr) :=
  subst.zipIdx.mapM fun
    | (some v, _) => .ok v
    | (none, i) => .error (.undeterminedVariable i)

/-- The rule at given values of its variables, from pattern to
replacement. -/
def Rule.instantiate (env : Environment) (r : Rule) (subst : List (Option Expr)) :
    Except ProofError Equation := do
  let vals ← allDetermined subst
  let proof := Expr.mkApp r.proof vals
  let lhs := r.statement.lhs.instantiateRev vals
  let rhs := r.statement.rhs.instantiateRev vals
  match r.statement.relation, r.reversed with
  | .eq, false => return ⟨r.statement.level, r.statement.carrier.instantiateRev vals, lhs, rhs, proof⟩
  | .eq, true =>
    let carrier := r.statement.carrier.instantiateRev vals
    let symm ← env.constant Vocabulary.eqSymm [r.statement.level]
    return ⟨r.statement.level, carrier, rhs, lhs, .mkApp symm [carrier, lhs, rhs, proof]⟩
  | .iff, false =>
    let propext ← env.constant Vocabulary.propext []
    return ⟨.one, .prop, lhs, rhs, .mkApp propext [lhs, rhs, proof]⟩
  | .iff, true =>
    let propext ← env.constant Vocabulary.propext []
    let symm ← env.constant Vocabulary.iffSymm []
    let flipped := Expr.mkApp symm [lhs, rhs, proof]
    return ⟨.one, .prop, rhs, lhs, .mkApp propext [rhs, lhs, flipped]⟩

namespace Equation

/-- The statement that is proved. -/
def statement (eq : Equation) : Expr := .mkEq eq.level eq.carrier eq.lhs eq.rhs

/-- From `a = b` to `f a = f b`, where the function `motive` is `f` with
values in the type `codomain` of the universe `level`. -/
def congruence (env : Environment) (motive codomain : Expr) (level : Level) (eq : Equation) :
    Except ProofError Equation :=
  match motive.stripMData with
  | .lam _ _ body => do
    let congr ← env.constant Vocabulary.congrArg [eq.level, level]
    return {
      level
      carrier := codomain
      lhs := body.instantiate eq.lhs
      rhs := body.instantiate eq.rhs
      proof := .mkApp congr [eq.carrier, codomain, eq.lhs, eq.rhs, motive, eq.proof] }
  | _ => .error (.notAMotive motive)

/-- A proof of the left side from one of the right side. -/
def castGoal (env : Environment) (eq : Equation) (new : Expr) : Except ProofError Expr :=
  if eq.carrier.isProp then do
    let mpr ← env.constant Vocabulary.eqMpr [.zero]
    return .mkApp mpr [eq.lhs, eq.rhs, eq.proof, new]
  else .error .expectedEquality

/-- A proof of the right side from one of the left side. -/
def castHyp (env : Environment) (eq : Equation) (old : Expr) : Except ProofError Expr :=
  if eq.carrier.isProp then do
    let mp ← env.constant Vocabulary.eqMp [.zero]
    return .mkApp mp [eq.lhs, eq.rhs, eq.proof, old]
  else .error .expectedEquality

end Equation

end Pinpoint
