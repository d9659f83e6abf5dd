/-
Metavariables: the holes of a proof.

Inside terms a metavariable is a free variable from a range of its own, so
that terms with holes have types like all others.  `MetaContext.instantiate?`
fills the holes that have a value, and the holes in those values; it has no
result when a value needs itself.
-/
import Pinpoint.Expr.Basic

namespace Pinpoint

/-- Identity of a metavariable: its place in the order of creation. -/
structure MetaId where
  index : UInt64
deriving DecidableEq, Repr

namespace MetaId

/-- The free variable of the first metavariable, `2 ^ 40`. -/
def base : UInt64 := 0x10000000000

/-- The free variable that stands for a metavariable. -/
def toFVar (m : MetaId) : FVarId := ⟨base + m.index⟩

/-- The metavariable that a free variable stands for. -/
def ofFVar? (x : FVarId) : Option MetaId := if base ≤ x.id then some ⟨x.id - base⟩ else none

/-- A metavariable as a term. -/
def toExpr (m : MetaId) : Expr := .fvar m.toFVar

end MetaId

/-- A metavariable: what it has to prove, and its value once there is one. -/
structure Metavariable where
  type : Expr
  value : Option Expr
deriving DecidableEq, Repr

/-- The term with its free variables replaced, if each of them has a
replacement. -/
def Expr.bindFVars? (f : FVarId → Option Expr) : Expr → Option Expr
  | .fvar x => f x
  | .app g a => do return .app (← g.bindFVars? f) (← a.bindFVars? f)
  | .lam i t b => do return .lam i (← t.bindFVars? f) (← b.bindFVars? f)
  | .pi i t b => do return .pi i (← t.bindFVars? f) (← b.bindFVars? f)
  | .letE t v b => do return .letE (← t.bindFVars? f) (← v.bindFVars? f) (← b.bindFVars? f)
  | .mdata m e => do return .mdata m (← e.bindFVars? f)
  | e => some e

/-- The metavariables of a proof, in the order of creation. -/
structure MetaContext where
  metas : List Metavariable
deriving DecidableEq, Repr

namespace MetaContext

/-- No metavariables. -/
def empty : MetaContext := ⟨[]⟩

/-- The metavariable that is created next. -/
def nextId (ms : MetaContext) : MetaId := ⟨UInt64.ofNat ms.metas.length⟩

/-- One more metavariable, without a value. -/
def push (ms : MetaContext) (type : Expr) : MetaContext := ⟨ms.metas ++ [⟨type, none⟩]⟩

/-- A metavariable. -/
def get? (ms : MetaContext) (m : MetaId) : Option Metavariable := ms.metas[m.index.toNat]?

/-- The value of a metavariable. -/
def value? (ms : MetaContext) (m : MetaId) : Option Expr := (ms.get? m).bind (·.value)

/-- Whether a metavariable has a value. -/
def isAssigned (ms : MetaContext) (m : MetaId) : Bool := (ms.value? m).isSome

/-- Gives a metavariable a value. -/
def assign (ms : MetaContext) (m : MetaId) (value : Expr) : MetaContext :=
  ⟨ms.metas.modify m.index.toNat fun v => { v with value := some value }⟩

/-- The metavariables with their identities. -/
def toList (ms : MetaContext) : List (MetaId × Metavariable) :=
  ms.metas.zipIdx.map fun (v, i) => (⟨UInt64.ofNat i⟩, v)

/-- The value that a free variable stands for. -/
def valueOf? (ms : MetaContext) (x : FVarId) : Option Expr :=
  (MetaId.ofFVar? x).bind ms.value?

/-- Fills holes that lie at most `depth` values deep. -/
def instantiateUpTo (ms : MetaContext) : Nat → Expr → Option Expr
  | 0, e => e.bindFVars? fun x => if (ms.valueOf? x).isSome then none else some (.fvar x)
  | depth + 1, e => e.bindFVars? fun x =>
    match ms.valueOf? x with
    | some v => ms.instantiateUpTo depth v
    | none => some (.fvar x)

/-- The term with its holes filled.  Values within values that need no value
twice are no deeper than there are metavariables. -/
def instantiate? (ms : MetaContext) (e : Expr) : Option Expr :=
  ms.instantiateUpTo ms.metas.length e

end MetaContext

end Pinpoint
