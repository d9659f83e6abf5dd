/-
Types of terms.

Inference opens binders with fresh free variables.  Their numbers are drawn
one after the other, also for terms that turn out to have no type, and the
drawing goes on over all that one checker is asked; so it is state, beside the
errors.  Fuel bounds the depth of the calls, as for reduction.
-/
import Pinpoint.LocalContext
import Pinpoint.Typing.Reduction

namespace Pinpoint

/-- Computations that draw fresh free variables, and have no result when fuel
runs out.  The state is the number of the next variable. -/
abbrev Supply := StateT UInt64 Option

/-- Computations of the checker. -/
abbrev CheckM := ExceptT CheckError Supply

/-- The next fresh free variable. -/
def Supply.fresh : Supply FVarId := do
  let next ← get
  set (next + 1)
  return ⟨next⟩

/-- Fuel that no computation of this world uses up, `2 ^ 62`. -/
def ampleFuel : Nat := 0x4000000000000000

namespace Environment

/-- The universe of a term whose type is known, which has to reduce to a
universe. -/
def sortOfType (env : Environment) (fuel : Nat) (e type : Expr) : CheckM Level := do
  match ← env.whnf .all fuel type with
  | .sort l => return l
  | other => throw (.notASort e other)

/-- The type of a term in a context. -/
def inferType (env : Environment) : Nat → LocalContext → Expr → CheckM Expr
  | 0, _, _ => fun _ => none
  | n + 1, Γ, e => do
    match e with
    | .bvar i => throw (.looseBVar i)
    | .fvar x =>
      match Γ.find? x with
      | some entry => return entry.type
      | none => throw (.unknownFVar x)
    | .sort l => return .sort (.succ l)
    | .const c ls =>
      match env.find? c with
      | some info => MonadExcept.ofExcept (info.instantiateType ls)
      | none => throw (.unknownConstant c)
    | .lit (.nat _) => return .const Vocabulary.nat []
    | .lit (.str _) => return .const Vocabulary.string []
    | .mdata _ e => inferType env n Γ e
    | .app f a =>
      let fnType ← inferType env n Γ f
      match ← env.whnf .all n fnType with
      | .pi _ dom body =>
        let argType ← inferType env n Γ a
        unless ← env.isDefEq .all n argType dom do throw (.typeMismatch dom argType)
        return body.instantiate a
      | other => throw (.notAFunction other)
    | .lam info dom body =>
      let domType ← inferType env n Γ dom
      let _ ← env.sortOfType n dom domType
      let x ← Supply.fresh
      let bodyType ← inferType env n (Γ.push x (.simple "x") dom) (body.instantiate (.fvar x))
      return .pi info dom (bodyType.abstractFVar x)
    | .pi _ dom body =>
      let domType ← inferType env n Γ dom
      let l₁ ← env.sortOfType n dom domType
      let x ← Supply.fresh
      let opened := body.instantiate (.fvar x)
      let bodyType ← inferType env n (Γ.push x (.simple "x") dom) opened
      let l₂ ← env.sortOfType n opened bodyType
      return .sort (Level.imax l₁ l₂).simplify
    | .letE type value body =>
      let typeType ← inferType env n Γ type
      let _ ← env.sortOfType n type typeType
      let valueType ← inferType env n Γ value
      unless ← env.isDefEq .all n valueType type do throw (.typeMismatch type valueType)
      inferType env n Γ (body.instantiate value)

end Environment

/-- A checker: an environment, the free variables in scope, and the fuel for
each question. -/
structure Checker where
  env : Environment
  locals : LocalContext
  fuel : Nat

namespace Checker

/-- The first free variable that a checker draws, `2 ^ 62`. -/
def firstFresh : UInt64 := 0x4000000000000000

/-- The type of a term. -/
def inferType (c : Checker) (e : Expr) : CheckM Expr := c.env.inferType c.fuel c.locals e

/-- The universe of a type. -/
def ensureSort (c : Checker) (e : Expr) : CheckM Level := do
  let type ← c.inferType e
  c.env.sortOfType c.fuel e type

/-- The weak-head normal form of a term. -/
def whnf (c : Checker) (t : Transparency) (e : Expr) : Option Expr := c.env.whnf t c.fuel e

/-- Whether two terms are equal by definition. -/
def isDefEq (c : Checker) (t : Transparency) (a b : Expr) : Option Bool :=
  c.env.isDefEq t c.fuel a b

end Checker

/-- What is computed by a checker that has drawn no variable yet. -/
def Supply.runFresh {α : Type} (m : Supply α) : Option α := m.run' Checker.firstFresh

/-- The answer of a checker that has drawn no variable yet. -/
def CheckM.runFresh {α : Type} (m : CheckM α) : Option (Except CheckError α) :=
  Supply.runFresh m.run

end Pinpoint
