/-
From written terms to terms of the calculus.

Binders are opened with fresh free variables while their bodies are read and
closed again afterwards, so that the types of operands are always asked of
closed terms.  A name stands for the innermost binder of that name, else for
the latest local variable, else for a constant.  Nothing implicit is inserted:
the universe parameters of a constant are read off the types given to it, and
are `1` where none is given.
-/
import Pinpoint.Expr.Statement
import Pinpoint.Surface.Term
import Pinpoint.Typing.Inference

namespace Pinpoint

/-- Causes for which a written term means nothing. -/
inductive ElaborationError where
  /-- A name that is neither bound nor declared. -/
  | unknownIdent (name : String)
  /-- A term whose type is needed and that has none. -/
  | cannotInfer (cause : CheckError)
  /-- A term of the given type where a proposition is expected. -/
  | notAProposition (type : Expr)
deriving DecidableEq, Repr

/-- The cause in words. -/
def ElaborationError.message : ElaborationError → String
  | .unknownIdent n => "Unknown identifier: " ++ n
  | .cannotInfer e => "Cannot infer type: " ++ e.message
  | .notAProposition t => "Type mismatch: expected Prop, got " ++ t.render

/-- Computations that read terms; the state is the number of the next bound
variable to open. -/
abbrev ElabM := ExceptT ElaborationError Supply

namespace Elaboration

/-- The first free variable that stands for an opened binder, `2 ^ 61`. -/
def firstBinder : UInt64 := 0x2000000000000000

/-- What is read when no binder has been opened yet. -/
def runFresh {α : Type} (m : ElabM α) : Option (Except ElaborationError α) :=
  m.run.run' firstBinder

/-- The answer of a checker of its own. -/
def ofCheck {α : Type} (m : CheckM α) : ElabM α := do
  match ← m.runFresh with
  | .ok a => return a
  | .error e => throw (.cannotInfer e)

/-- The type of a term. -/
def inferType (env : Environment) (fuel : Nat) (Γ : LocalContext) (e : Expr) : ElabM Expr :=
  ofCheck (Checker.inferType ⟨env, Γ, fuel⟩ e)

/-- The universe of a type. -/
def sortLevel (env : Environment) (fuel : Nat) (Γ : LocalContext) (e : Expr) : ElabM Level :=
  ofCheck (Checker.ensureSort ⟨env, Γ, fuel⟩ e)

/-- Reads universe parameters off arguments: where the type of a constant
binds a `Sort u`, the argument's universe is `u`, unless an earlier argument
has settled it. -/
def solveLevels (env : Environment) (fuel : Nat) (Γ : LocalContext) (params : List Name) :
    Expr → List Expr → List (Option Level) → ElabM (List (Option Level))
  | .pi _ (.sort (.param p)) body, arg :: args, solved => do
    match params.idxOf? p with
    | some i =>
      match solved[i]? with
      | some none =>
        let l ← sortLevel env fuel Γ arg
        solveLevels env fuel Γ params body args (solved.set i (some l))
      | _ => solveLevels env fuel Γ params body args solved
    | none => solveLevels env fuel Γ params body args solved
  | .pi _ _ body, _ :: args, solved => solveLevels env fuel Γ params body args solved
  | _, _, solved => return solved

/-- What a name stands for, when it is applied to the given arguments. -/
def resolve (env : Environment) (fuel : Nat) (Γ : LocalContext) (name : String)
    (args : List Expr) : ElabM Expr :=
  match if name = "_" then none else Γ.findName? name with
  | some entry => return .fvar entry.fvar
  | none =>
    let n := Name.ofString name
    match env.find? n with
    | none => throw (.unknownIdent name)
    | some c => do
      let unsolved := c.levelParams.map fun _ => none
      let solved ← solveLevels env fuel Γ c.levelParams c.type args unsolved
      return .const n (solved.map fun l => l.getD .one)

/-- Two operands under an operator; all but an equivalence take the type of
the left operand and its universe. -/
def operation (env : Environment) (fuel : Nat) (Γ : LocalContext) (op : Operator)
    (lhs rhs : Expr) : ElabM Expr :=
  match op with
  | .iff => return .mkIff lhs rhs
  | op =>
    if env.contains op.constant then do
      let type ← inferType env fuel Γ lhs
      let level ← sortLevel env fuel Γ type
      return .mkApp (.const op.constant [level]) [type, lhs, rhs]
    else throw (.unknownIdent op.constant.render)

/-- Opens a binder, reads what is inside, and closes it. -/
def openBinder (env : Environment) (fuel : Nat) (mk : BinderInfo → Expr → Expr → Expr)
    (Γ : LocalContext) (name : String) (type : Expr) (inside : LocalContext → ElabM Expr) :
    ElabM Expr := do
  let _ ← sortLevel env fuel Γ type
  let x ← Supply.fresh
  let body ← inside (Γ.push x (.ofString name) type)
  return mk .default type (body.abstractFVar x)

mutual

/-- The meaning of a written term in a context. -/
def elaborate (env : Environment) (fuel : Nat) (Γ : LocalContext) : Surface.Term → ElabM Expr
  | .ident _ name => resolve env fuel Γ name []
  | .prop _ => return .prop
  | .type _ => return .type
  | .nat _ n => return .lit (.nat n)
  | .str _ s => return .lit (.str s)
  | .paren _ e => elaborate env fuel Γ e
  | .app _ head args => do
    let args ← elaborateArgs env fuel Γ args
    let head ←
      match head.unparen with
      | .ident _ name => resolve env fuel Γ name args
      | _ => elaborate env fuel Γ head
    return .mkApp head args
  | .arrow _ dom cod => do
    let dom ← elaborate env fuel Γ dom
    let cod ← elaborate env fuel Γ cod
    return .arrow dom cod
  | .pi _ binders body =>
    elaborateBinders env fuel .pi (fun Γ => elaborate env fuel Γ body) Γ binders
  | .lam _ binders body =>
    elaborateBinders env fuel .lam (fun Γ => elaborate env fuel Γ body) Γ binders
  | .binary _ op lhs rhs => do
    let lhs ← elaborate env fuel Γ lhs
    let rhs ← elaborate env fuel Γ rhs
    operation env fuel Γ op lhs rhs

/-- The meanings of arguments, from left to right. -/
def elaborateArgs (env : Environment) (fuel : Nat) (Γ : LocalContext) :
    Surface.Args → ElabM (List Expr)
  | .one a => do return [← elaborate env fuel Γ a]
  | .cons a rest => do
    let a ← elaborate env fuel Γ a
    return a :: (← elaborateArgs env fuel Γ rest)

/-- The meaning of binders around a body. -/
def elaborateBinders (env : Environment) (fuel : Nat) (mk : BinderInfo → Expr → Expr → Expr)
    (body : LocalContext → ElabM Expr) (Γ : LocalContext) : Surface.Binders → ElabM Expr
  | .one b type => do
    let type ← elaborate env fuel Γ type
    openBinder env fuel mk Γ b.name type body
  | .cons b type rest => do
    let type ← elaborate env fuel Γ type
    openBinder env fuel mk Γ b.name type fun Γ => elaborateBinders env fuel mk body Γ rest

end

/-- The meaning of a written term that has to be a proposition. -/
def elaborateProp (env : Environment) (fuel : Nat) (Γ : LocalContext) (t : Surface.Term) :
    ElabM Expr := do
  let e ← elaborate env fuel Γ t
  let type ← inferType env fuel Γ e
  if (← env.whnf .all fuel type).isProp then return e
  else throw (.notAProposition type)

end Elaboration

end Pinpoint
