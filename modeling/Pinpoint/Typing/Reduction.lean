/-
Weak-head reduction and definitional equality.

Reduction need not end on terms without a type, so both functions take fuel
that bounds the depth of their calls, and answer `none` when it runs out; any
other answer is the answer for every larger amount of fuel.

Definitional equality reduces both sides and compares what it finds; bodies of
binders are compared as they are, without opening them.
-/
import Pinpoint.Environment
import Pinpoint.Expr.Binding

namespace Pinpoint

/-- How far reduction may unfold. -/
inductive Transparency where
  /-- Applied functions, definitions inside the term, and metadata. -/
  | reducible
  /-- Also the constants that have a value. -/
  | all
deriving DecidableEq, Repr

namespace Environment

/-- The value of a constant, at a transparency that unfolds constants. -/
def valueAt? (env : Environment) (t : Transparency) (n : Name) (ls : List Level) :
    Option Expr :=
  match t with
  | .reducible => none
  | .all => env.value? n ls

/-- The weak-head normal form of a term.  The head of an application is
reduced to see whether the application can be; if not, the application stays
as it is, with the head that it had. -/
def whnf (env : Environment) (t : Transparency) : Nat → Expr → Option Expr
  | 0, _ => none
  | n + 1, e =>
    match e with
    | .mdata _ e => whnf env t n e
    | .letE _ v b => whnf env t n (b.instantiate v)
    | .app .. =>
      (whnf env t n e.appFn).bind fun head =>
        match head, e.appArgs with
        | .lam _ _ b, a :: args => whnf env t n (.mkApp (b.instantiate a) args)
        | .const c ls, args =>
          match env.valueAt? t c ls with
          | some v => whnf env t n (.mkApp v args)
          | none => some e
        | _, _ => some e
    | .const c ls =>
      match env.valueAt? t c ls with
      | some v => whnf env t n v
      | none => some e
    | e => some e

/-- Whether two terms are equal by definition: they are the same term, or
their weak-head normal forms agree part by part. -/
def isDefEq (env : Environment) (t : Transparency) : Nat → Expr → Expr → Option Bool
  | 0, _, _ => none
  | n + 1, a, b =>
    if a = b then some true
    else do
      let a ← env.whnf t n a
      let b ← env.whnf t n b
      match a, b with
      | .sort l, .sort l' => some (l.simplify = l'.simplify)
      | .const c ls, .const c' ls' =>
        some (c = c' && ls.map Level.simplify = ls'.map Level.simplify)
      | .app f x, .app f' x' =>
        if ← isDefEq env t n f f' then isDefEq env t n x x' else some false
      | .lam _ d b, .lam _ d' b' =>
        if ← isDefEq env t n d d' then isDefEq env t n b b' else some false
      | .pi _ d b, .pi _ d' b' =>
        if ← isDefEq env t n d d' then isDefEq env t n b b' else some false
      | a, b => some (a = b)

end Environment

end Pinpoint
