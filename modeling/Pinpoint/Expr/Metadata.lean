/-
Terms up to metadata.

`eraseMData` is the term without any metadata.  `eqModMData` compares terms
without looking at metadata or at how binders are supplied, and compares
universes once they are simplified.
-/
import Pinpoint.Expr.Basic

namespace Pinpoint.Expr

/-- The term without metadata. -/
def eraseMData : Expr → Expr
  | .app f a => .app f.eraseMData a.eraseMData
  | .lam i t b => .lam i t.eraseMData b.eraseMData
  | .pi i t b => .pi i t.eraseMData b.eraseMData
  | .letE t v b => .letE t.eraseMData v.eraseMData b.eraseMData
  | .mdata _ e => e.eraseMData
  | e => e

/-- Equality up to metadata, binder annotations and simplification of
universes; the levels of constants have to be the same. -/
def eqModMData : Expr → Expr → Bool
  | .mdata _ e, e' => eqModMData e e'
  | .app f a, e' =>
    match e'.stripMData with
    | .app f' a' => eqModMData f f' && eqModMData a a'
    | _ => false
  | .lam _ t b, e' =>
    match e'.stripMData with
    | .lam _ t' b' => eqModMData t t' && eqModMData b b'
    | _ => false
  | .pi _ t b, e' =>
    match e'.stripMData with
    | .pi _ t' b' => eqModMData t t' && eqModMData b b'
    | _ => false
  | .letE t v b, e' =>
    match e'.stripMData with
    | .letE t' v' b' => eqModMData t t' && eqModMData v v' && eqModMData b b'
    | _ => false
  | .sort l, e' =>
    match e'.stripMData with
    | .sort l' => l.simplify = l'.simplify
    | _ => false
  | e, e' => e = e'.stripMData

@[simp] theorem eraseMData_stripMData (e : Expr) : e.stripMData.eraseMData = e.eraseMData := by
  induction e with
  | mdata _ _ ih => simpa [stripMData, eraseMData] using ih
  | _ => rfl

end Pinpoint.Expr
