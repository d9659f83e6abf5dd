/-
Texts that are read one after the other.

A session has one context, on which binders are pushed while what is inside them
is read, and one supply of variables for them.  An error goes through all binders
that are open, and each of them is taken off again on its way.

* `Session.read` — reading with a context that changes;
* `Session.read_eq` — it is reading in the context as it was before;
* `Session.readAll_eq_some` — what a session is after any texts;
* `Session.read_after_readAll` — what is read in it, whatever it has read before.
-/
import Pinpoint.Proofs.Declarations
import Pinpoint.Proofs.Prelude
import Pinpoint.Proofs.Resumption

namespace Pinpoint

/-- Whether a free variable is declared in a context, or occurs in one of its
types. -/
def LocalContext.HasFVar (Γ : LocalContext) (x : FVarId) : Prop :=
  ∃ entry ∈ Γ.entries, entry.fvar = x ∨ entry.type.hasFVar x

/-- What is kept while texts are read: the variables in scope, and the number of
the next bound variable to open. -/
structure Session where
  locals : LocalContext
  next : UInt64

/-- Computations that read terms in a session. -/
abbrev SessionM := ExceptT ElaborationError (StateT Session Option)

namespace Session

open Elaboration (sortLevel resolve operation elaborate elaborateArgs elaborateBinders)

variable {env : Environment} {fuel : Nat} {α β : Type}

/-! ### Reading -/

/-- A session in which nothing has been read. -/
def start (Γ : LocalContext) : Session := ⟨Γ, Elaboration.firstBinder⟩

/-- What is found in the context as it is. -/
def here (m : LocalContext → ElabM α) : SessionM α :=
  ExceptT.mk fun σ => ((m σ.locals).run.run σ.next).map fun (answer, next) =>
    (answer, { σ with next := next })

def push (x : FVarId) (name : Name) (type : Expr) : SessionM Unit :=
  modify fun σ => { σ with locals := σ.locals.push x name type }

def pop : SessionM Unit :=
  modify fun σ => { σ with locals := σ.locals.pop }

/-- Reads with one more variable in scope, which is taken off again whether that
fails or not. -/
def withLocal (x : FVarId) (name : Name) (type : Expr) (inside : SessionM α) : SessionM α := do
  push x name type
  let answer ← ExceptT.lift inside.run
  pop
  MonadExcept.ofExcept answer

/-- Opens a binder, reads what is inside, and closes it. -/
def openBinder (env : Environment) (fuel : Nat) (mk : BinderInfo → Expr → Expr → Expr)
    (name : String) (type : Expr) (inside : SessionM Expr) : SessionM Expr := do
  let _ ← here fun Γ => sortLevel env fuel Γ type
  let x ← here fun _ => liftM Supply.fresh
  let body ← withLocal x (.ofString name) type inside
  return mk .default type (body.abstractFVar x)

mutual

/-- Reads a written term. -/
def read (env : Environment) (fuel : Nat) : Surface.Term → SessionM Expr
  | .ident _ name => here fun Γ => resolve env fuel Γ name []
  | .prop _ => return .prop
  | .type _ => return .type
  | .nat _ n => return .lit (.nat n)
  | .str _ s => return .lit (.str s)
  | .paren _ e => read env fuel e
  | .app _ head args => do
    let args ← readArgs env fuel args
    let head ←
      match head.unparen with
      | .ident _ name => here fun Γ => resolve env fuel Γ name args
      | _ => read env fuel head
    return .mkApp head args
  | .arrow _ dom cod => do
    let dom ← read env fuel dom
    let cod ← read env fuel cod
    return .arrow dom cod
  | .pi _ binders body => readBinders env fuel .pi (read env fuel body) binders
  | .lam _ binders body => readBinders env fuel .lam (read env fuel body) binders
  | .binary _ op lhs rhs => do
    let lhs ← read env fuel lhs
    let rhs ← read env fuel rhs
    here fun Γ => operation env fuel Γ op lhs rhs

def readArgs (env : Environment) (fuel : Nat) : Surface.Args → SessionM (List Expr)
  | .one a => do return [← read env fuel a]
  | .cons a rest => do
    let a ← read env fuel a
    return a :: (← readArgs env fuel rest)

def readBinders (env : Environment) (fuel : Nat) (mk : BinderInfo → Expr → Expr → Expr)
    (body : SessionM Expr) : Surface.Binders → SessionM Expr
  | .one b type => do
    let type ← read env fuel type
    openBinder env fuel mk b.name type body
  | .cons b type rest => do
    let type ← read env fuel type
    openBinder env fuel mk b.name type (readBinders env fuel mk body rest)

end

/-- Reads texts in order, each with its answer. -/
def readAll (env : Environment) (fuel : Nat) (ts : List Surface.Term) :
    StateT Session Option (List (Except ElaborationError Expr)) :=
  ts.mapM fun t => (read env fuel t).run

/-! ### Reading in the context as it was before -/

theorem run_bind {ε τ : Type} (m : ExceptT ε (StateT τ Option) α)
    (f : α → ExceptT ε (StateT τ Option) β) (σ : τ) :
    (m >>= f).run.run σ = (m.run.run σ).bind fun r =>
      match r.1 with
      | .ok a => (f a).run.run r.2
      | .error e => some (.error e, r.2) := by
  show Option.bind _ _ = _
  congr 1
  funext ⟨answer, τ⟩
  cases answer <;> rfl

theorem here_pure (a : α) : here (fun _ => pure a) = pure a := rfl

theorem here_bind (m : LocalContext → ElabM α) (f : α → LocalContext → ElabM β) :
    (here m >>= fun a => here (f a)) = here fun Γ => m Γ >>= fun a => f a Γ := by
  refine ExceptT.ext (StateT.ext fun σ => ?_)
  have hright : (here fun Γ => m Γ >>= fun a => f a Γ).run.run σ =
      ((m σ.locals >>= fun a => f a σ.locals).run.run σ.next).map fun (answer, next) =>
        (answer, { σ with next := next }) := rfl
  have hleft : (here m).run.run σ = ((m σ.locals).run.run σ.next).map fun (answer, next) =>
      (answer, { σ with next := next }) := rfl
  rw [run_bind, hright, run_bind, hleft]
  rcases (m σ.locals).run.run σ.next with _ | ⟨_ | a, next⟩ <;> rfl

/-- What is read with one more variable in scope is read in the larger context,
and the context is the smaller one afterwards. -/
theorem withLocal_here (x : FVarId) (name : Name) (type : Expr) (m : LocalContext → ElabM α) :
    withLocal x name type (here m) = here fun Γ => m (Γ.push x name type) := by
  refine ExceptT.ext (StateT.ext fun σ => ?_)
  have hpush : (push x name type).run.run σ =
      some (.ok (), { σ with locals := σ.locals.push x name type }) := rfl
  have hinside : (ExceptT.lift (here m).run : SessionM _).run.run
        { σ with locals := σ.locals.push x name type } =
      ((m (σ.locals.push x name type)).run.run σ.next).map fun (answer, next) =>
        (.ok answer, { locals := σ.locals.push x name type, next := next }) := by
    show Option.bind (Option.map _ _) _ = _
    rcases (m (σ.locals.push x name type)).run.run σ.next with _ | ⟨answer, next⟩ <;> rfl
  have hright : (here fun Γ => m (Γ.push x name type)).run.run σ =
      ((m (σ.locals.push x name type)).run.run σ.next).map fun (answer, next) =>
        (answer, { σ with next := next }) := rfl
  unfold withLocal
  rw [run_bind, hpush, Option.bind_some]
  dsimp only
  rw [run_bind, hinside, hright]
  rcases (m (σ.locals.push x name type)).run.run σ.next with _ | ⟨_ | a, next⟩ <;> rfl

theorem openBinder_here (mk : BinderInfo → Expr → Expr → Expr) (name : String) (type : Expr)
    (inside : LocalContext → ElabM Expr) :
    openBinder env fuel mk name type (here inside) =
      here fun Γ => Elaboration.openBinder env fuel mk Γ name type inside := by
  unfold openBinder Elaboration.openBinder
  simp only [withLocal_here, ← here_bind, ← here_pure]

mutual

/-- Reading with a context that changes is reading in the context as it was
before. -/
theorem read_eq : ∀ t : Surface.Term, read env fuel t = here fun Γ => elaborate env fuel Γ t
  | .ident _ _ | .prop _ | .type _ | .nat _ _ | .str _ _ => rfl
  | .paren _ e => read_eq e
  | .app _ head args => by
    unfold read elaborate
    rw [readArgs_eq args, ← here_bind]
    congr
    funext as
    -- a head that is a name is resolved with its arguments at hand
    generalize head.unparen = inner
    cases inner with
    | ident _ name => simp only [← here_bind, ← here_pure]
    | _ => simp only [read_eq head, ← here_bind, ← here_pure]
  | .arrow _ dom cod => by
    unfold read elaborate
    simp only [read_eq dom, read_eq cod, ← here_bind, ← here_pure]
  | .pi _ binders body => by
    unfold read elaborate
    exact readBinders_eq (read_eq body) binders
  | .lam _ binders body => by
    unfold read elaborate
    exact readBinders_eq (read_eq body) binders
  | .binary _ op lhs rhs => by
    unfold read elaborate
    simp only [read_eq lhs, read_eq rhs, ← here_bind]

theorem readArgs_eq : ∀ args : Surface.Args,
    readArgs env fuel args = here fun Γ => elaborateArgs env fuel Γ args
  | .one a => by
    unfold readArgs elaborateArgs
    simp only [read_eq a, ← here_bind, ← here_pure]
  | .cons a rest => by
    unfold readArgs elaborateArgs
    simp only [read_eq a, readArgs_eq rest, ← here_bind, ← here_pure]

theorem readBinders_eq {mk : BinderInfo → Expr → Expr → Expr} {body : SessionM Expr}
    {inside : LocalContext → ElabM Expr} (hbody : body = here inside) :
    ∀ binders : Surface.Binders, readBinders env fuel mk body binders =
      here fun Γ => elaborateBinders env fuel mk inside Γ binders
  | .one b type => by
    unfold readBinders elaborateBinders
    simp only [read_eq type, hbody, openBinder_here, ← here_bind]
  | .cons b type rest => by
    unfold readBinders elaborateBinders
    simp only [read_eq type, readBinders_eq hbody rest, openBinder_here, ← here_bind]

end

/-! ### What a session is afterwards -/

variable {σ τ : Session} {t : Surface.Term} {ts : List Surface.Term} {Γ : LocalContext} {e : Expr}

/-- Reading a term, whether it succeeds or fails, moves the supply alone. -/
theorem run_read {answer : Except ElaborationError Expr} :
    (read env fuel t).run.run σ = some (answer, τ) ↔ τ.locals = σ.locals ∧
      (elaborate env fuel σ.locals t).run.run σ.next = some (answer, τ.next) := by
  rw [read_eq]
  show Option.map _ _ = _ ↔ _
  rw [Option.map_eq_some_iff]
  constructor
  · rintro ⟨⟨answer, next⟩, h, heq⟩
    obtain ⟨rfl, rfl⟩ := Prod.mk.inj heq
    exact ⟨rfl, h⟩
  · rintro ⟨hlocals, h⟩
    obtain ⟨locals, next⟩ := τ
    obtain rfl : locals = σ.locals := hlocals
    exact ⟨(answer, next), h, rfl⟩

/-- Texts that are read, with whatever answers, leave the context as it was, and
draw a variable for each of their binders at most. -/
theorem readAll_eq_some {answers : List (Except ElaborationError Expr)}
    (h : (readAll env fuel ts).run σ = some (answers, τ)) :
    τ.locals = σ.locals ∧ ∃ j ≤ (ts.map Surface.Term.binderCount).sum,
      τ.next = σ.next + .ofNat j := by
  induction ts generalizing σ answers with
  | nil =>
    obtain ⟨-, rfl⟩ := Prod.mk.inj (Option.some.inj h)
    exact ⟨rfl, 0, Nat.le_refl 0, (UInt64.add_zero _).symm⟩
  | cons t ts ih =>
    rw [readAll, List.mapM_cons, StateT.run_bind] at h
    obtain ⟨⟨answer, σ'⟩, hread, h⟩ := Option.bind_eq_some_iff.mp h
    rw [StateT.run_bind] at h
    obtain ⟨⟨rest, τ'⟩, hrest, h⟩ := Option.bind_eq_some_iff.mp h
    obtain ⟨-, rfl⟩ := Prod.mk.inj (Option.some.inj h)
    obtain ⟨hlocals, hread⟩ := run_read.mp hread
    obtain ⟨i, hi, hnext⟩ := (Elaboration.elaborate_reading t).drawsAtMost _ hread
    obtain ⟨hlocals', j, hj, hnext'⟩ := ih hrest
    refine ⟨hlocals'.trans hlocals, i + j, ?_, ?_⟩
    · rw [List.map_cons, List.sum_cons]
      omega
    · rw [hnext', hnext, add_ofNat_add]

theorem exists_read_ok_iff : (∃ τ, (read env fuel t).run.run σ = some (.ok e, τ)) ↔
    ∃ u, (elaborate env fuel σ.locals t).Returns σ.next e u := by
  constructor
  · rintro ⟨τ, h⟩
    exact ⟨τ.next, (run_read.mp h).2⟩
  · rintro ⟨u, h⟩
    exact ⟨⟨σ.locals, u⟩, run_read.mpr ⟨rfl, h⟩⟩

/-- What is read in a session.  The context stays as it was, a term has no loose
bound variable and no other free variables than the context, and it is the term
that is read when no text was read before. -/
theorem read_after_readAll (henv : env.Checked) (hfree : env.FVarFree)
    (hΓ : Γ.FVarsIn FVarId.IsLocal) (hclosed : Γ.Closed) {answers : List (Except ElaborationError Expr)}
    (hts : (readAll env fuel ts).run (start Γ) = some (answers, σ))
    (hroom : ((ts ++ [t]).map Surface.Term.binderCount).sum ≤ 2 ^ 61) :
    σ.locals = Γ ∧
    (∀ answer τ, (read env fuel t).run.run σ = some (answer, τ) → τ.locals = Γ ∧
      ∀ e, answer = .ok e → e.Scoped 0 ∧ e.FVarsIn fun x => Γ.HasFVar x ∧ x.IsLocal) ∧
    ∀ e, e.Openable → ((∃ τ, (read env fuel t).run.run σ = some (.ok e, τ)) ↔
      Elaboration.runFresh (elaborate env fuel Γ t) = some (.ok e)) := by
  obtain ⟨hlocals, j, hj, hnext⟩ := readAll_eq_some hts
  have hlocals : σ.locals = Γ := hlocals
  have hfvars : Γ.FVarsIn fun x => Γ.HasFVar x ∧ x.IsLocal := fun entry hentry =>
    ⟨⟨⟨entry, hentry, .inl rfl⟩, (hΓ entry hentry).1⟩, Expr.fvarsIn_iff.mpr fun x hx =>
      ⟨⟨entry, hentry, .inr hx⟩, Expr.fvarsIn_iff.mp (hΓ entry hentry).2 x hx⟩⟩
  refine ⟨hlocals, fun answer τ h => ?_, fun e he => ?_⟩
  · obtain ⟨hτ, h⟩ := run_read.mp h
    refine ⟨hτ.trans hlocals, ?_⟩
    rintro e rfl
    rw [hlocals] at h
    exact ⟨Elaboration.elaborate_scoped henv.closed hclosed t h,
      Elaboration.elaborate_fvarsIn hfree.fvarsIn hfvars t h⟩
  · -- The binders of all texts fit into the range, so there is room wherever the supply stands.
    rw [List.map_append, List.sum_append, List.map_singleton, List.sum_singleton] at hroom
    have hfirst := toNat_firstBinder
    have hmoved : σ.next.toNat = 2 ^ 61 + j := by
      rw [hnext, Supply.toNat_add_ofNat (by rw [start, hfirst]; omega), start, hfirst]
    have hle : Elaboration.firstBinder ≤ σ.next := by
      rw [UInt64.le_iff_toNat_le, toNat_firstBinder]
      omega
    -- A text is read alike from every place that leaves room for it.
    have hlater : ∀ {s s' : UInt64}, Elaboration.firstBinder ≤ s → Elaboration.firstBinder ≤ s' →
        s.toNat ≤ 2 ^ 61 + j → s'.toNat ≤ 2 ^ 61 + j →
        (∃ u, (elaborate env fuel Γ t).Returns s e u) →
        ∃ u, (elaborate env fuel Γ t).Returns s' e u := by
      rintro s s' hs hs' hsj hsj' ⟨u, h⟩
      exact Elaboration.elaborate_returns_later henv.closed hfree hΓ hclosed hs hs' (by omega)
        (by omega) he h
    rw [exists_read_ok_iff, hlocals, Elaboration.runFresh_eq_ok]
    exact ⟨hlater hle UInt64.le_rfl (by omega) (by omega),
      hlater UInt64.le_rfl hle (by omega) (by omega)⟩

/-! ### Examples -/

namespace SessionExample

/-- A context with a proposition `q`. -/
def context : LocalContext := LocalContext.empty.push ⟨0⟩ (.simple "q") .prop

/-- A name, wherever it stands. -/
def ident (text : String) : Surface.Term := .ident ⟨0, 0⟩ text

/-- An equation, wherever it stands. -/
def equals (lhs rhs : Surface.Term) : Surface.Term := .binary ⟨0, 0⟩ .eq lhs rhs

/-- `fun (A : Type) (x : A) => x = x`. -/
def reflexive : Surface.Term :=
  .lam ⟨0, 0⟩ (.cons ⟨⟨0, 0⟩, "A"⟩ (.type ⟨0, 0⟩) (.one ⟨⟨0, 0⟩, "x"⟩ (ident "A")))
    (equals (ident "x") (ident "x"))

/-- `fun (p : Prop) => r`, where nothing is called `r`. -/
def unknown : Surface.Term := .lam ⟨0, 0⟩ (.one ⟨⟨0, 0⟩, "p"⟩ (.prop ⟨0, 0⟩)) (ident "r")

/-- The function that `reflexive` stands for. -/
def function : Expr :=
  .lam .default .type (.lam .default (.bvar 0) (.mkEq .one (.bvar 1) (.bvar 0) (.bvar 0)))

end SessionExample

open SessionExample in
/-- An equation between bound variables is read as before, although other variables
stand for them and an error has come in between. -/
theorem read_after_error : context.FVarsIn FVarId.IsLocal ∧ context.Closed ∧
    (∃ σ, (readAll ⟨Prelude.constants⟩ 5 [reflexive, unknown]).run (start context) =
        some ([.ok function, .error (.unknownIdent "r")], σ) ∧ σ.locals = context ∧
      ∃ τ, (read ⟨Prelude.constants⟩ 5 reflexive).run.run σ = some (.ok function, τ) ∧
        τ.locals = context) ∧
    function.Scoped 0 ∧ function.Openable := by
  have hΓ : context.FVarsIn FVarId.IsLocal := by decide
  have hclosed : context.Closed := by
    show ∀ entry ∈ context.entries, entry.type.Scoped 0
    decide
  have hcount : function.Openable :=
    (Expr.WithinLimits.of_letFree (by decide) (by decide) (by decide) (by decide)).openable
  have hts : (readAll ⟨Prelude.constants⟩ 5 [reflexive, unknown]).run (start context) =
      some ([.ok function, .error (.unknownIdent "r")],
        ⟨context, Elaboration.firstBinder + 3⟩) := by rfl
  have hstart : Elaboration.runFresh (elaborate ⟨Prelude.constants⟩ 5 context reflexive) =
      some (.ok function) := by rfl
  obtain ⟨hlocals, hread, hsame⟩ := read_after_readAll (t := reflexive) Environment.checked_prelude
    Environment.fvarFree_prelude hΓ hclosed hts (by decide)
  obtain ⟨τ, hτ⟩ := (hsame function hcount).mpr hstart
  obtain ⟨hrestored, hterm⟩ := hread _ τ hτ
  exact ⟨hΓ, hclosed, ⟨_, hts, hlocals, τ, hτ, hrestored⟩, (hterm function rfl).1, hcount⟩

open Environment.DeclarationExample SessionExample in
/-- The type of an operand brings a variable of the checker with it that an accepted
constant has in its type. -/
theorem read_variable_of_checker :
    Environment.Checked ⟨Prelude.constants ++ [capturing]⟩ ∧
    ∃ e, (∃ τ, (read ⟨Prelude.constants ++ [capturing]⟩ 5
        (equals (ident "k") (ident "k"))).run.run (start .empty) = some (.ok e, τ)) ∧
      ¬ e.FVarsIn LocalContext.empty.HasFVar := by
  have haccepted : Environment.declare ⟨Prelude.constants⟩ 5 capturing =
      some (.ok ⟨Prelude.constants ++ [capturing]⟩) := by rfl
  have hread : (read ⟨Prelude.constants ++ [capturing]⟩ 5
      (equals (ident "k") (ident "k"))).run.run (start .empty) =
        some (.ok (.mkEq .zero capturing.type (.const (.simple "k") [])
          (.const (.simple "k") [])), start .empty) := by rfl
  refine ⟨Environment.checked_prelude.declare haccepted, _, ⟨_, hread⟩, fun h => ?_⟩
  obtain ⟨entry, hentry, -⟩ := h.1.1.2.2
  exact absurd hentry List.not_mem_nil

end Session

end Pinpoint
