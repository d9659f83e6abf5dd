/-
Terms of the calculus.

Bound variables are indices of 32 bits that count binders from the inside;
free variables are numbers of 64 bits.  Metadata wraps a term without
changing its meaning.  This module holds the type, application spines and the
simplest queries; binding is in `Expr.Binding`.
-/
import Pinpoint.Level
import Pinpoint.Vocabulary

namespace Pinpoint

/-- How the argument of a binder is supplied. -/
inductive BinderInfo where
  | default
  | implicit
  | instImplicit
deriving DecidableEq, Repr

/-- Literals: numbers of 64 bits and texts. -/
inductive Literal where
  | nat (n : UInt64)
  | str (s : String)
deriving DecidableEq, Repr

/-- Values that metadata can hold. -/
inductive MDataValue where
  | bool (b : Bool)
  | nat (n : UInt64)
  | str (s : String)
  | name (n : Name)
deriving DecidableEq, Repr

/-- Identity of a free variable. -/
structure FVarId where
  id : UInt64
deriving DecidableEq, Repr

/-- Terms. -/
inductive Expr where
  | bvar (index : UInt32)
  | fvar (id : FVarId)
  | sort (level : Level)
  | const (name : Name) (levels : List Level)
  | app (fn arg : Expr)
  | lam (info : BinderInfo) (type body : Expr)
  | pi (info : BinderInfo) (type body : Expr)
  | letE (type value body : Expr)
  | lit (value : Literal)
  | mdata (data : List (Name × MDataValue)) (inner : Expr)
deriving DecidableEq, Repr

namespace Expr

instance : Inhabited Expr := ⟨.sort .zero⟩

/-- The universe of propositions. -/
def prop : Expr := .sort .zero

/-- The universe of data. -/
def type : Expr := .sort .one

/-- `f` applied to each of the arguments in order. -/
def mkApp (f : Expr) (args : List Expr) : Expr := args.foldl .app f

/-- The term under its outer metadata. -/
def stripMData : Expr → Expr
  | .mdata _ e => e.stripMData
  | e => e

/-- Whether the term is the universe of propositions. -/
def isProp : Expr → Bool
  | .sort l => l.simplify.isZero
  | _ => false

/-- The name, if the term is a constant. -/
def constName? : Expr → Option Name
  | .const n _ => some n
  | _ => none

/-- The head of an application spine. -/
def appFn : Expr → Expr
  | .app f _ => f.appFn
  | e => e

/-- The arguments of an application spine followed by `rest`. -/
def appArgsAux : Expr → List Expr → List Expr
  | .app f a, rest => f.appArgsAux (a :: rest)
  | _, rest => rest

/-- The arguments of an application spine, in order. -/
def appArgs (e : Expr) : List Expr := e.appArgsAux []

/-- The arguments, if the term is the constant `name` applied to exactly
`arity` of them. -/
def appOf? (e : Expr) (name : Name) (arity : Nat) : Option (List Expr) :=
  match e.appFn with
  | .const n _ => if n = name ∧ e.appArgs.length = arity then some e.appArgs else none
  | _ => none

/-- The number of nodes, metadata included. -/
def size : Expr → Nat
  | .app f a => 1 + f.size + a.size
  | .lam _ t b => 1 + t.size + b.size
  | .pi _ t b => 1 + t.size + b.size
  | .letE t v b => 1 + t.size + v.size + b.size
  | .mdata _ e => 1 + e.size
  | _ => 1

/-- Whether a free variable occurs. -/
def hasFVar (x : FVarId) : Expr → Bool
  | .fvar y => y = x
  | .app f a => f.hasFVar x || a.hasFVar x
  | .lam _ t b => t.hasFVar x || b.hasFVar x
  | .pi _ t b => t.hasFVar x || b.hasFVar x
  | .letE t v b => t.hasFVar x || v.hasFVar x || b.hasFVar x
  | .mdata _ e => e.hasFVar x
  | _ => false

/-- The term with universe parameters replaced. -/
def instantiateLevels (subst : List (Name × Level)) : Expr → Expr
  | .sort l => .sort (l.instantiate subst)
  | .const n ls => .const n (ls.map (Level.instantiate subst))
  | .app f a => .app (f.instantiateLevels subst) (a.instantiateLevels subst)
  | .lam i t b => .lam i (t.instantiateLevels subst) (b.instantiateLevels subst)
  | .pi i t b => .pi i (t.instantiateLevels subst) (b.instantiateLevels subst)
  | .letE t v b =>
    .letE (t.instantiateLevels subst) (v.instantiateLevels subst) (b.instantiateLevels subst)
  | .mdata m e => .mdata m (e.instantiateLevels subst)
  | e => e

@[simp] theorem mkApp_nil (f : Expr) : mkApp f [] = f := rfl

@[simp] theorem mkApp_cons (f a : Expr) (args : List Expr) :
    mkApp f (a :: args) = mkApp (.app f a) args := rfl

theorem mkApp_append (f : Expr) (as bs : List Expr) :
    mkApp f (as ++ bs) = mkApp (mkApp f as) bs := by
  simp [mkApp]

/-- A spine taken apart and put together again. -/
theorem mkApp_appFn_appArgsAux (e : Expr) (rest : List Expr) :
    mkApp e.appFn (e.appArgsAux rest) = mkApp e rest := by
  induction e generalizing rest with
  | app f a ihf _ => simp [appFn, appArgsAux, ihf]
  | _ => rfl

@[simp] theorem mkApp_appFn_appArgs (e : Expr) : mkApp e.appFn e.appArgs = e :=
  mkApp_appFn_appArgsAux e []

end Expr

end Pinpoint
