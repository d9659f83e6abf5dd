/-
Binding: loose bound variables, lifting, instantiation and abstraction.

Every operation is one traversal, `mapVars`, that tells the number of binders
crossed to what it does at a variable.  Indices are words of 32 bits: sums
wrap, and the largest word is never counted as loose, because the range that
`hasLooseBVars` asks about is half open.
-/
import Pinpoint.Expr.Basic

namespace Pinpoint

/-- The largest index of a bound variable. -/
def maxIndex : UInt32 := 0xFFFFFFFF

/-- One more, but never past the largest word. -/
def saturatingSucc (n : UInt32) : UInt32 := if n = maxIndex then maxIndex else n + 1

namespace Expr

/-- Replaces the variables of a term.  `onBVar` and `onFVar` are told the
number of binders between the root and the variable, counted from the given
start. -/
def mapVars (onBVar : UInt32 → UInt32 → Expr) (onFVar : UInt32 → FVarId → Expr) :
    UInt32 → Expr → Expr
  | d, .bvar i => onBVar d i
  | d, .fvar x => onFVar d x
  | _, .sort l => .sort l
  | _, .const n ls => .const n ls
  | d, .app f a => .app (mapVars onBVar onFVar d f) (mapVars onBVar onFVar d a)
  | d, .lam i t b => .lam i (mapVars onBVar onFVar d t) (mapVars onBVar onFVar (d + 1) b)
  | d, .pi i t b => .pi i (mapVars onBVar onFVar d t) (mapVars onBVar onFVar (d + 1) b)
  | d, .letE t v b =>
    .letE (mapVars onBVar onFVar d t) (mapVars onBVar onFVar d v)
      (mapVars onBVar onFVar (d + 1) b)
  | _, .lit v => .lit v
  | d, .mdata m e => .mdata m (mapVars onBVar onFVar d e)

/-- Whether a bound variable with an index in the half-open range from
`start` to `stop` is loose; the range moves up by one under each binder, its
end not past the largest word. -/
def hasLooseBVarInRange (start stop : UInt32) : Expr → Bool
  | .bvar i => start ≤ i && i < stop
  | .app f a => f.hasLooseBVarInRange start stop || a.hasLooseBVarInRange start stop
  | .lam _ t b =>
    t.hasLooseBVarInRange start stop || b.hasLooseBVarInRange (start + 1) (saturatingSucc stop)
  | .pi _ t b =>
    t.hasLooseBVarInRange start stop || b.hasLooseBVarInRange (start + 1) (saturatingSucc stop)
  | .letE t v b =>
    t.hasLooseBVarInRange start stop || v.hasLooseBVarInRange start stop ||
      b.hasLooseBVarInRange (start + 1) (saturatingSucc stop)
  | .mdata _ e => e.hasLooseBVarInRange start stop
  | _ => false

/-- Whether any bound variable is loose. -/
def hasLooseBVars (e : Expr) : Bool := e.hasLooseBVarInRange 0 maxIndex

/-- The loose bound variables from `start` up raised by `amount`; the largest
index stays. -/
def liftAt (start amount : UInt32) (e : Expr) : Expr :=
  mapVars (fun d i => if d ≤ i ∧ i < maxIndex then .bvar (i + amount) else .bvar i)
    (fun _ x => .fvar x) start e

/-- All loose bound variables raised by `amount`. -/
def lift (amount : UInt32) (e : Expr) : Expr := e.liftAt 0 amount

/-- The body of a binder with its variable replaced by `v`. -/
def instantiate (e v : Expr) : Expr :=
  mapVars
    (fun d i => if i = d then v.lift d else if d < i then .bvar (i - 1) else .bvar i)
    (fun _ x => .fvar x) 0 e

/-- A body taken from under as many binders as there are values, with their
variables replaced at once; the first value belongs to the outermost
binder. -/
def instantiateRev (e : Expr) (vals : List Expr) : Expr :=
  mapVars
    (fun d i =>
      if i < d then .bvar i
      else
        match vals.reverse[(i - d).toNat]? with
        | some v => v.lift d
        | none => .bvar (i - UInt32.ofNat vals.length))
    (fun _ x => .fvar x) 0 e

/-- The term as the body of a new binder for the free variable `x`. -/
def abstractFVar (e : Expr) (x : FVarId) : Expr :=
  mapVars (fun d i => if d ≤ i then .bvar (i + 1) else .bvar i)
    (fun d y => if y = x then .bvar d else .fvar y) 0 e

/-- The term with the free variable `x` replaced by `v`, which is inserted as
it is under binders. -/
def substFVar (e : Expr) (x : FVarId) (v : Expr) : Expr :=
  mapVars (fun _ i => .bvar i) (fun _ y => if y = x then v else .fvar y) 0 e

/-- The type of functions from `dom` to `cod`. -/
def arrow (dom cod : Expr) : Expr := .pi .default dom (cod.lift 1)

end Expr

end Pinpoint
