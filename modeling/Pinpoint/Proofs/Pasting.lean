/-
Printed terms are read back and elaborated as the same terms.

The printer writes a term as one spine, with all the arguments behind the head, and
operators by their signs.  A text is direct if this loses nothing that it says: the
arguments behind a parenthesis settle no universe parameter, and an operator whose
carrier the printer hides is not written out with its name.  Along a direct text,
whatever the elaborator makes of it in one context it makes again, in a parallel
context, of what the printer writes.  At the top both contexts are empty.

* `isBase_of_elaborate` — what is not an application stands for a term that is
  not written as one;
* `Again.mkApp_of_isBase`, `Again.mkApp_of_resolve`, `Again.mkApp_iff` — printed
  applications, by their heads;
* `repeats_app`, `repeats_binary`, `repeats_arrow`, `repeats_elaborate` — the
  induction along the text, with the arguments that stand around a part of it;
* `elaborate_bare` — places in the text do not matter;
* `elaborate_render` — a printed term is read and elaborated as itself;
* `elaborate_render_of_called_like_binder` — but not if a constant in it is
  called as the printer calls a bound variable.
-/
import Pinpoint.Proofs.Grouping
import Pinpoint.Proofs.Prelude
import Pinpoint.Proofs.Reelaboration

namespace Pinpoint

namespace Surface

/-- Whether what a name stands for in front of `total` arguments is decided by the first
`given` of them, and is all printed: the others settle no universe parameter, and it is
not an operator of whose arguments the printer hides one, or of an equivalence of which
it hides a universe. -/
def isDirectHead (env : Environment) (name : String) (given total : Nat) : Bool :=
  let n := Name.ofString name
  ([Operator.eq, .add, .mul].all fun op => n ≠ op.constant || total < op.arity) &&
    (env.find? n).all fun c => c.settles given total &&
      (n ≠ Operator.iff.constant || total < Operator.iff.arity || c.levelParams = [])

mutual

/-- Whether a term, with `further` arguments around it, is read as before once it is
written with each head in front of all its arguments and with operators as signs. -/
def Term.isDirect (env : Environment) : Term → Nat → Bool
  | .ident .., further => further = 0
  | .prop _, _ | .type _, _ | .nat .., _ | .str .., _ => true
  | .paren _ e, further => e.isDirect env further
  | .app _ head args, further =>
    args.isDirect env &&
      match head.unparen with
      | .ident _ name => isDirectHead env name args.toList.length (args.toList.length + further)
      | _ => head.isDirect env (args.toList.length + further)
  | .arrow _ dom cod, _ => dom.isDirect env 0 && cod.isDirect env 0
  | .binary _ _ lhs rhs, _ => lhs.isDirect env 0 && rhs.isDirect env 0
  | .lam _ binders body, _ | .pi _ binders body, _ => binders.isDirect env && body.isDirect env 0

def Args.isDirect (env : Environment) : Args → Bool
  | .one a => a.isDirect env 0
  | .cons a rest => a.isDirect env 0 && rest.isDirect env

def Binders.isDirect (env : Environment) : Binders → Bool
  | .one _ type => type.isDirect env 0
  | .cons _ type rest => type.isDirect env 0 && rest.isDirect env

end

theorem Args.toList_ne_nil (args : Args) : args.toList ≠ [] := by
  cases args <;> exact List.cons_ne_nil _ _

section
variable {env : Environment} {name : String} {given total further : Nat}

/-- What a direct name is in front of its arguments: the constant of no operator that
takes so few, or an equivalence. -/
theorem of_isDirectHead (h : isDirectHead env name given total) :
    (∀ c, env.find? (.ofString name) = some c → c.settles given total) ∧
      ((∀ op : Operator, Name.ofString name = op.constant → total < op.arity) ∨
        Name.ofString name = Operator.iff.constant ∧ Operator.iff.arity ≤ total ∧
          ∀ c, env.find? (.ofString name) = some c → c.levelParams = []) := by
  obtain ⟨hops, hfind⟩ := Bool.and_eq_true_iff.mp h
  have hconst : ∀ c, env.find? (.ofString name) = some c → c.settles given total ∧
      (Name.ofString name ≠ Operator.iff.constant ∨ total < Operator.iff.arity ∨
        c.levelParams = []) := by
    intro c hc
    simpa [hc, or_assoc] using hfind
  have hop : ∀ op ∈ [Operator.eq, .add, .mul], Name.ofString name = op.constant →
      total < op.arity := by
    intro op hop hname
    simpa [hname] using List.all_eq_true.mp hops op hop
  refine ⟨fun c hc => (hconst c hc).1, ?_⟩
  by_cases hiff : Name.ofString name = Operator.iff.constant ∧ Operator.iff.arity ≤ total
  · refine .inr ⟨hiff.1, hiff.2, fun c hc => ?_⟩
    rcases (hconst c hc).2 with hne | hlt | hparams
    · exact absurd hiff.1 hne
    · omega
    · exact hparams
  · refine .inl fun op hname => ?_
    cases op with
    | iff => exact Nat.lt_of_not_le fun hle => hiff ⟨hname, hle⟩
    | _ => exact hop _ (by decide) hname

/-- A head is a name with its arguments, or has to be direct with them around it. -/
theorem Term.isDirect_app {span : Span} {head : Term} {args : Args}
    (h : (Term.app span head args).isDirect env further) : args.isDirect env ∧
      ((∃ span' name, head.unparen = .ident span' name ∧
          isDirectHead env name args.toList.length (args.toList.length + further)) ∨
        (∀ span' name, head.unparen ≠ .ident span' name) ∧
          head.isDirect env (args.toList.length + further)) := by
  rw [isDirect, Bool.and_eq_true] at h
  refine ⟨h.1, ?_⟩
  cases hhead : head.unparen with
  | ident span' name =>
    rw [hhead] at h
    exact .inl ⟨span', name, rfl, h.2⟩
  | _ =>
    rw [hhead] at h
    exact .inr ⟨nofun, h.2⟩

end

theorem Term.isSpine_unparen (e : Term) : e.unparen.isSpine = e.isSpine :=
  match e with
  | .paren _ e => isSpine_unparen e
  | .ident .. | .prop _ | .type _ | .nat .. | .str .. | .app .. | .arrow .. | .binary ..
  | .lam .. | .pi .. => rfl

theorem Term.unparen_bare (e : Term) : e.bare.unparen = e.unparen.bare :=
  match e with
  | .paren _ e => unparen_bare e
  | .ident .. | .prop _ | .type _ | .nat .. | .str .. | .app .. | .arrow .. | .binary ..
  | .lam .. | .pi .. => rfl

end Surface

namespace Elaboration

open Environment Pinpoint.Expr ElabM

variable {env : Environment} {n : Nat} {Γ : LocalContext} {s t : UInt64} {e : Expr}

/-- What a head stands for in front of arguments: a name is resolved with them, and
anything else stands for itself. -/
def elaborateHead (env : Environment) (n : Nat) (Γ : LocalContext) (head : Surface.Term)
    (args : List Expr) : ElabM Expr :=
  match head.unparen with
  | .ident _ name => resolve env n Γ name args
  | _ => elaborate env n Γ head

theorem elaborate_app (env : Environment) (n : Nat) (Γ : LocalContext) (span : Surface.Span)
    (head : Surface.Term) (args : Surface.Args) :
    elaborate env n Γ (.app span head args) = do
      let args ← elaborateArgs env n Γ args
      let head ← elaborateHead env n Γ head args
      return .mkApp head args := by
  rw [elaborate]
  refine congrArg _ (funext fun args => ?_)
  unfold elaborateHead
  cases head.unparen <;> rfl

theorem elaborateHead_of_ident {head : Surface.Term} {span : Surface.Span} {name : String}
    (h : head.unparen = .ident span name) (args : List Expr) :
    elaborateHead env n Γ head args = resolve env n Γ name args := by
  rw [elaborateHead, h]

theorem elaborateHead_of_ne_ident {head : Surface.Term}
    (h : ∀ span name, head.unparen ≠ .ident span name) (args : List Expr) :
    elaborateHead env n Γ head args = elaborate env n Γ head := by
  unfold elaborateHead
  split
  · exact absurd ‹_› (h _ _)
  · rfl

theorem elaborateHead_of_not_isSpine {head : Surface.Term} (h : head.isSpine = false)
    (args : List Expr) : elaborateHead env n Γ head args = elaborate env n Γ head := by
  refine elaborateHead_of_ne_ident (fun span name hhead => ?_) args
  rw [← head.isSpine_unparen, hhead] at h
  cases h

/-! ### Heads -/

theorem isBase_of_elaborateBinders {mk : BinderInfo → Expr → Expr → Expr}
    (hmk : mk = .pi ∨ mk = .lam) {body : LocalContext → ElabM Expr} {binders : Surface.Binders}
    (h : (elaborateBinders env n mk body Γ binders).Returns s e t) : e.isBase := by
  have hbinder : ∀ {T name inside u}, (openBinder env n mk Γ name T inside).Returns u e t →
      e.isBase := by
    intro T name inside u h
    obtain ⟨l, u, b, -, -, rfl⟩ := returns_openBinder.mp h
    rcases hmk with rfl | rfl <;> rfl
  cases binders with
  | one b type =>
    obtain ⟨T, u, -, h⟩ := returns_bind.mp h
    exact hbinder h
  | cons b type rest =>
    obtain ⟨T, u, -, h⟩ := returns_bind.mp h
    exact hbinder h

/-- What is neither a name nor an application stands for a term that is written as
neither. -/
theorem isBase_of_elaborate : ∀ {w : Surface.Term}, w.isSpine = false →
    (elaborate env n Γ w).Returns s e t → e.isBase
  | .prop _, _, h | .type _, _, h | .nat _ _, _, h | .str _ _, _, h => by
    obtain ⟨rfl, -⟩ := returns_pure.mp h
    rfl
  | .paren _ w, hw, h => isBase_of_elaborate (w := w) hw h
  | .arrow _ dom cod, _, h => by
    obtain ⟨D, u, -, h⟩ := returns_bind.mp h
    obtain ⟨C, v, -, h⟩ := returns_bind.mp h
    obtain ⟨rfl, -⟩ := returns_pure.mp h
    rfl
  | .lam _ binders body, _, h => isBase_of_elaborateBinders (.inr rfl) h
  | .pi _ binders body, _, h => isBase_of_elaborateBinders (.inl rfl) h
  | .binary _ op lhs rhs, _, h => by
    obtain ⟨l, u, -, h⟩ := returns_bind.mp h
    obtain ⟨r, v, -, h⟩ := returns_bind.mp h
    have hsome : e.operation?.isSome := by rw [operation?_of_returns h]; rfl
    obtain ⟨head, rfl⟩ := eq_of_operation? (operation?_of_returns h)
    exact hsome

/-! ### Printed applications -/

section
variable {Γ' : LocalContext} {ρ : FVarId → FVarId} {level : FVarId → Nat} {d : Nat} {s' : UInt64}
  {f a lhs rhs : Expr} {as more : List Expr}

/-- Arguments are made again one after the other. -/
theorem Again.args (h : ∀ b ∈ a :: as, Again env n Γ' ρ level d s' b) {u : UInt64}
    (hu : s'.toNat ≤ u.toNat)
    (hroom : u.toNat + ((a :: as).map fun b => b.size + 1).sum ≤ 2 ^ 62) :
    ∃ t', (elaborateArgs env n Γ' (.ofList ((a.closeVars level d 0).written d Precedence.arg)
      (as.map fun b => (b.closeVars level d 0).written d Precedence.arg))).Returns u
        ((a :: as).map (rename ρ)) t' ∧
      Draws ((a :: as).map fun b => b.size + 1).sum u t' := by
  induction as generalizing a u with
  | nil =>
    obtain ⟨ha, -⟩ := List.forall_mem_cons.mp h
    simp only [List.map_cons, List.map_nil, List.sum_cons, List.sum_nil] at hroom ⊢
    obtain ⟨v, ha, huv, hvu⟩ := ha hu (by omega) Precedence.arg
    exact ⟨v, returns_bind.mpr ⟨_, v, ha, returns_pure.mpr ⟨rfl, rfl⟩⟩, huv, by omega⟩
  | cons b as ih =>
    obtain ⟨ha, hrest⟩ := List.forall_mem_cons.mp h
    have hsum : ((a :: b :: as).map fun b => b.size + 1).sum =
        a.size + 1 + ((b :: as).map fun b => b.size + 1).sum := List.sum_cons
    rw [hsum] at hroom ⊢
    obtain ⟨v, ha, huv, hvu⟩ := ha hu (by omega) Precedence.arg
    obtain ⟨w, hrest, hvw, hwv⟩ := ih hrest (Nat.le_trans hu huv) (by omega)
    exact ⟨w, returns_bind.mpr ⟨_, v, ha, returns_bind.mpr ⟨_, w, hrest,
      returns_pure.mpr ⟨rfl, rfl⟩⟩⟩, by omega, by omega⟩

/-- A spine is written with the head in front. -/
theorem written_closeVars_mkApp (hapart : KeepsApart (closeVars level d 0 f) (as.length + 1))
    (hhead : ∀ args, ((closeVars level d 0 f).written d Precedence.app).applyArgs args =
      .app .nowhere ((closeVars level d 0 f).written d Precedence.app) args) (prec : Nat) :
    (closeVars level d 0 (mkApp f (a :: as))).written d prec =
      .enclose (Precedence.app < prec) (.app .nowhere
        ((closeVars level d 0 f).written d Precedence.app)
        (.ofList ((closeVars level d 0 a).written d Precedence.arg)
          (as.map fun a => (closeVars level d 0 a).written d Precedence.arg))) := by
  have happ : KeepsApart (closeVars level d 0 f) ((as.map (closeVars level d 0)).length + 1) := by
    rwa [List.length_map]
  rw [closeVars_mkApp, List.map_cons, written_mkApp happ hhead, List.map_map]
  rfl

/-- A head that is no name is made again, after the arguments behind it. -/
theorem Again.mkApp_of_isBase (hbase : f.isBase) (hf : Again env n Γ' ρ level d s' f)
    (hmore : ∀ a ∈ more, Again env n Γ' ρ level d s' a) :
    Again env n Γ' ρ level d s' (mkApp f more) := by
  cases more with
  | nil => exact hf
  | cons a as =>
    intro u hu hroom prec
    rw [size_mkApp] at hroom ⊢
    obtain ⟨v, hargs, huv, hvu⟩ := Again.args hmore hu (by omega)
    obtain ⟨w, hf, hvw, hwv⟩ := hf (Nat.le_trans hu huv) (by omega) Precedence.app
    have hbase' : (closeVars level d 0 f).isBase := isBase_closeVars hbase
    have hspine := isSpine_written (d := d) hbase' Precedence.app
    rw [written_closeVars_mkApp (keepsApart_of_isBase hbase' _)
      (Surface.Term.applyArgs_of_not_isSpine hspine), elaborate_enclose, elaborate_app]
    refine ⟨w, returns_bind.mpr ⟨_, v, hargs, returns_bind.mpr ⟨f.rename ρ, w, ?_,
      returns_pure.mpr ⟨(rename_mkApp ..).symm, rfl⟩⟩⟩, by omega, by omega⟩
    rwa [elaborateHead_of_not_isSpine hspine]

/-- A name is resolved again, with the arguments behind it. -/
theorem Again.mkApp_of_resolve {written : String}
    (hwritten : ∀ prec, (f.closeVars level d 0).written d prec = .ident .nowhere written)
    (hapart : KeepsApart (f.closeVars level d 0) (as.length + 1))
    (hf : ∀ u, (resolve env n Γ' written ((a :: as).map (rename ρ))).Returns u (f.rename ρ) u)
    (hargs : ∀ b ∈ a :: as, Again env n Γ' ρ level d s' b) :
    Again env n Γ' ρ level d s' (mkApp f (a :: as)) := by
  intro u hu hroom prec
  rw [size_mkApp] at hroom ⊢
  obtain ⟨v, hargs, huv, hvu⟩ := Again.args hargs hu (by omega)
  rw [written_closeVars_mkApp hapart (by rw [hwritten]; exact fun _ => rfl), elaborate_enclose,
    hwritten, elaborate_app]
  refine ⟨v, returns_bind.mpr ⟨_, v, hargs, returns_bind.mpr ⟨f.rename ρ, v, ?_,
    returns_pure.mpr ⟨(rename_mkApp ..).symm, rfl⟩⟩⟩, by omega, by omega⟩
  rw [elaborateHead_of_ident rfl]
  exact hf v

/-- An operation is made again from its operands. -/
theorem Again.operation {op : Operator} (hop : e.operation? = some (op, lhs, rhs))
    (hlhs : Again env n Γ' ρ level d s' lhs) (hrhs : Again env n Γ' ρ level d s' rhs)
    (ho : ∀ u, (Elaboration.operation env n Γ' op (lhs.rename ρ) (rhs.rename ρ)).Returns u
      (e.rename ρ) u) : Again env n Γ' ρ level d s' e := by
  intro u hu hroom prec
  obtain ⟨head, rfl⟩ := eq_of_operation? hop
  simp only [size] at hroom ⊢
  obtain ⟨v, hl, huv, hvu⟩ := hlhs hu (by omega) op.leftPrecedence
  obtain ⟨w, hr, hvw, hwv⟩ := hrhs (Nat.le_trans hu huv) (by omega) op.rightPrecedence
  have hcloses : (closeVars level d 0 (.app (.app head lhs) rhs)).operation? =
      some (op, closeVars level d 0 lhs, closeVars level d 0 rhs) := by
    rw [operation?_closeVars, hop]
    rfl
  rw [written_of_operation hcloses, elaborate_enclose, elaborate]
  exact ⟨w, returns_bind.mpr ⟨_, v, hl, returns_bind.mpr ⟨_, w, hr, ho w⟩⟩, by omega, by omega⟩

/-- An equivalence that was written with its name is made again from its sign. -/
theorem Again.mkApp_iff (hlength : 2 ≤ more.length)
    (hmore : ∀ a ∈ more, Again env n Γ' ρ level d s' a) :
    Again env n Γ' ρ level d s' (mkApp (.const Operator.iff.constant []) more) := by
  match more, hlength with
  | lhs :: rhs :: more, _ =>
    obtain ⟨hlhs, hmore⟩ := List.forall_mem_cons.mp hmore
    obtain ⟨hrhs, hmore⟩ := List.forall_mem_cons.mp hmore
    have hop : (mkIff lhs rhs).operation? = some (.iff, lhs, rhs) := by
      simp [Expr.mkIff, operation?]
    have hiff : Again env n Γ' ρ level d s' (mkIff lhs rhs) :=
      .operation hop hlhs hrhs fun u => returns_pure.mpr ⟨rfl, rfl⟩
    have hbase : (mkIff lhs rhs).isBase := Option.isSome_iff_exists.mpr ⟨_, hop⟩
    show Again env n Γ' ρ level d s' (mkApp (mkIff lhs rhs) more)
    exact hiff.mkApp_of_isBase hbase hmore

end

/-! ### Terms -/

/-- Whether whatever the elaborator makes of a term is made again with `further`
arguments around it, from the printed form of the application. -/
def RepeatsUnder (env : Environment) (n : Nat) (w : Surface.Term) (further : Nat) : Prop :=
  ∀ ⦃Γ s e t⦄, (elaborate env n Γ w).Returns s e t →
    ∀ ⦃Γ' ρ p level d s'⦄, Parallel Γ Γ' ρ p level d s s' →
      ∀ more : List Expr, more.length = further → (mkApp e more).FVarsIn p →
        (mkApp e more).Plain d → s.toNat + e.size ≤ 2 ^ 62 →
        s'.toNat + (mkApp e more).size ≤ 2 ^ 62 → (∀ a ∈ more, Again env n Γ' ρ level d s' a) →
          e.Scoped 0 ∧ Draws e.size s t ∧ Again env n Γ' ρ level d s' (mkApp e more)

/-- The arguments of a term, as they are written, are elaborated again. -/
def RepeatsArgs (env : Environment) (n : Nat) (args : Surface.Args) : Prop :=
  ∀ ⦃Γ s es t⦄, (elaborateArgs env n Γ args).Returns s es t →
    ∀ ⦃Γ' ρ p level d s'⦄, Parallel Γ Γ' ρ p level d s s' →
      (∀ a ∈ es, a.FVarsIn p ∧ a.Plain d) →
      s.toNat + (es.map fun a => a.size + 1).sum ≤ 2 ^ 62 →
      s'.toNat + (es.map fun a => a.size + 1).sum ≤ 2 ^ 62 →
        es.length = args.toList.length ∧ Draws (es.map fun a => a.size + 1).sum s t ∧
          ∀ a ∈ es, a.Scoped 0 ∧ Again env n Γ' ρ level d s' a

theorem RepeatsUnder.repeats {w : Surface.Term} (hw : RepeatsUnder env n w 0) :
    Repeats env n fun Γ => elaborate env n Γ w := by
  intro Γ s e t hr Γ' ρ p level d s' h he hplain hs hs'
  obtain ⟨hscoped, hdraws, hagain⟩ := hw hr h [] rfl he hplain hs hs' (List.forall_mem_nil _)
  exact ⟨hscoped, hdraws, hagain (Nat.le_refl _) hs'⟩

/-- What is no name is made again with any arguments around it. -/
theorem Repeats.under {w : Surface.Term} (hw : Repeats env n fun Γ => elaborate env n Γ w)
    (hspine : w.isSpine = false) (further : Nat) : RepeatsUnder env n w further := by
  intro Γ s e t hr Γ' ρ p level d s' h more hlength he hplain hs hs' hmore
  have hsize := size_mkApp e more
  obtain ⟨hscoped, hdraws, hagain⟩ :=
    hw.again hr h (FVarsIn.mkApp.mp he).1 hplain.mkApp.1 hs (by omega)
  exact ⟨hscoped, hdraws, hagain.mkApp_of_isBase (isBase_of_elaborate hspine hr) hmore⟩

theorem repeats_ident (hfree : env.FVarFree) (span : Surface.Span) (name : String) :
    RepeatsUnder env n (.ident span name) 0 := by
  intro Γ s e t hr Γ' ρ p level d s' h more hlength he hplain hs hs' hmore
  obtain rfl := List.eq_nil_of_length_eq_zero hlength
  have hnone : ∀ a ∈ ([] : List Expr), a.FVarsIn p ∧ a.Plain d := List.forall_mem_nil _
  have hsettles : ∀ c, env.find? (.ofString name) = some c →
      c.settles 0 (0 + ([] : List Expr).length) := fun c _ => by
    simp [Constant.settles, sortParams]
  obtain ⟨rfl, hshape, written, hwritten, hagain⟩ := h.resolve hfree hnone he hplain hsettles hr
  refine ⟨?_, ⟨Nat.le_refl _, Nat.le_add_right _ _⟩, fun u _ _ prec => ⟨u, ?_, Nat.le_refl _,
    Nat.le_add_right _ _⟩⟩
  · rcases hshape with ⟨x, rfl⟩ | ⟨ls, rfl⟩ <;> trivial
  · rw [hwritten]
    exact hagain u

/-- A universe or a literal is written as it is. -/
theorem repeats_pure {c : Expr} (hc : c.Scoped 0) (hrename : ∀ ρ, c.rename ρ = c)
    (hagain : ∀ (Γ' : LocalContext) (level : FVarId → Nat) (d prec : Nat),
      elaborate env n Γ' ((c.closeVars level d 0).written d prec) = pure c) :
    Repeats env n fun _ => pure c := by
  intro Γ s e t hr Γ' ρ p level d s' h he hplain hs hs'
  obtain ⟨rfl, rfl⟩ := returns_pure.mp hr
  refine ⟨hc, ⟨Nat.le_refl _, Nat.le_add_right _ _⟩, fun prec => ⟨s', ?_, Nat.le_refl _,
    Nat.le_add_right _ _⟩⟩
  rw [hagain, hrename]
  exact returns_pure.mpr ⟨rfl, rfl⟩

theorem repeats_binary (hfree : env.FVarFree) (henv : env.Closed) {lhs rhs : Surface.Term}
    (span : Surface.Span) (op : Operator)
    (hlhs : Repeats env n fun Γ => elaborate env n Γ lhs)
    (hrhs : Repeats env n fun Γ => elaborate env n Γ rhs) :
    Repeats env n fun Γ => elaborate env n Γ (.binary span op lhs rhs) := by
  intro Γ s e t hr Γ' ρ p level d s' h he hplain hs hs'
  obtain ⟨l, u, hl, hparts⟩ := returns_bind.mp hr
  obtain ⟨r, v, hrresult, ho⟩ := returns_bind.mp hparts
  have hop := operation?_of_returns ho
  obtain ⟨head, rfl⟩ := eq_of_operation? hop
  have hsize : (app (app head l) r).size = 1 + (1 + head.size + l.size) + r.size := rfl
  obtain ⟨hlscoped, ⟨hsu, hus⟩, hlagain⟩ :=
    hlhs.again hl h he.1.2 hplain.app.1.app.2 (by omega) (by omega)
  obtain ⟨hrscoped, ⟨huv, hvu⟩, hragain⟩ :=
    hrhs.again hrresult (h.draw hsu (Nat.le_refl _)) he.2 hplain.app.2 (by omega) (by omega)
  obtain ⟨rfl, -, hscoped, ho'⟩ :=
    (h.draw (Nat.le_trans hsu huv) (Nat.le_refl _)).operation hfree henv he hplain ho
  exact ⟨hscoped hlscoped hrscoped, ⟨by omega, by omega⟩,
    Again.operation hop hlagain hragain ho' (Nat.le_refl _) hs'⟩

theorem repeats_arrow {dom cod : Surface.Term} (span : Surface.Span)
    (hdom : Repeats env n fun Γ => elaborate env n Γ dom)
    (hcod : Repeats env n fun Γ => elaborate env n Γ cod) :
    Repeats env n fun Γ => elaborate env n Γ (.arrow span dom cod) := by
  intro Γ s e t hr Γ' ρ p level d s' h he hplain hs hs'
  obtain ⟨D, u, hD, hparts⟩ := returns_bind.mp hr
  obtain ⟨C, v, hC, hlast⟩ := returns_bind.mp hparts
  obtain ⟨rfl, rfl⟩ := returns_pure.mp hlast
  obtain ⟨hDplain, hCplain⟩ := hplain.arrow
  have hCp : C.FVarsIn p := he.2.of_lift
  rw [Expr.arrow, size, size_lift] at hs hs' ⊢
  obtain ⟨hDscoped, ⟨hsu, hus⟩, hwritten⟩ := hdom hD h he.1 hDplain (by omega) (by omega)
  obtain ⟨u', hD', hsu', hus'⟩ := hwritten (Precedence.arrow + 1)
  obtain ⟨hCscoped, ⟨huv, hvu⟩, hwritten⟩ :=
    hcod hC (h.draw hsu hsu').arrow hCp hCplain (by omega) (by omega)
  obtain ⟨v', hC', huv', hvu'⟩ := hwritten Precedence.arrow
  have hCsize := hCplain.size
  have hnesting := nesting_le_size C
  have hlift : C.lift 1 = C := lift_eq_self (hCscoped.hasLooseBVars (by omega))
  rw [hlift]
  refine ⟨⟨hDscoped, hCscoped.mono (Nat.zero_le 1)⟩, ⟨by omega, by omega⟩, fun prec =>
    ⟨v', ?_, by omega, by omega⟩⟩
  have hdepth : C.FVarsIn fun y => level y < d := hCp.mono h.depth
  have hcloses : closeVars level d 0 (.pi .default D C) =
      .pi .default (closeVars level d 0 D) (closeVars level (d + 1) 0 C) :=
    congrArg _ (closeVars_succ hdepth)
  have hunused : (closeVars level (d + 1) 0 C).usesBVar 0 = false :=
    (usesBVar_closeVars (K := 0) hCscoped (hdepth.mono fun _ => Nat.le_of_lt) (by omega)).mpr
      (hdepth.mono fun _ => Nat.ne_of_lt)
  rw [hcloses, written_pi, hunused, if_neg Bool.false_ne_true, elaborate_enclose, elaborate]
  refine returns_bind.mpr ⟨_, u', hD', returns_bind.mpr ⟨_, v', hC', returns_pure.mpr ⟨?_, rfl⟩⟩⟩
  rw [Expr.arrow, ← rename_lift, hlift]
  rfl

/-- An application is made again with all the arguments around it: what its head stands for
is decided by its own arguments. -/
theorem repeats_app (hfree : env.FVarFree) {head : Surface.Term} {args : Surface.Args}
    (span : Surface.Span) {further : Nat}
    (hdirect : (Surface.Term.app span head args).isDirect env further)
    (hhead : ∀ k, head.isDirect env k → RepeatsUnder env n head k)
    (hargs : args.isDirect env → RepeatsArgs env n args) :
    RepeatsUnder env n (.app span head args) further := by
  intro Γ s e t hr Γ' ρ p level d s' h more hlength he hplain hs hs' hmore
  obtain ⟨hargsdirect, hheaddirect⟩ := Surface.Term.isDirect_app hdirect
  rw [elaborate_app] at hr
  obtain ⟨es, u, hes, hparts⟩ := returns_bind.mp hr
  obtain ⟨f, v, hf, hlast⟩ := returns_bind.mp hparts
  obtain ⟨rfl, rfl⟩ := returns_pure.mp hlast
  -- The printer writes the arguments of the application and those around it alike.
  rw [← mkApp_append] at he hplain hs' ⊢
  obtain ⟨hfp, hallp⟩ := FVarsIn.mkApp.mp he
  obtain ⟨hfplain, hallplain⟩ := hplain.mkApp
  -- The arguments are made again, each with the draws of its own.
  have hesboth : ∀ a ∈ es, a.FVarsIn p ∧ a.Plain d := fun a ha =>
    ⟨hallp a (List.mem_append_left _ ha), hallplain a (List.mem_append_left _ ha)⟩
  have hsize := size_mkApp f (es ++ more)
  rw [List.map_append, List.sum_append] at hsize
  rw [size_mkApp] at hs ⊢
  obtain ⟨hcount, ⟨hsu, hus⟩, hesagain⟩ :=
    hargs hargsdirect hes h hesboth (by omega) (by omega)
  have hall : ∀ a ∈ es ++ more, Again env n Γ' ρ level d s' a := fun a ha =>
    (List.mem_append.mp ha).elim (fun ha => (hesagain a ha).2) (hmore a)
  have htotal : (es ++ more).length = args.toList.length + further := by
    rw [List.length_append, hcount, hlength]
  suffices hparts : f.Scoped 0 ∧ Draws f.size u v ∧
      Again env n Γ' ρ level d s' (mkApp f (es ++ more)) by
    obtain ⟨hfscoped, ⟨huv, hvu⟩, hagain⟩ := hparts
    exact ⟨scoped_mkApp.mpr ⟨hfscoped, fun a ha => (hesagain a ha).1⟩, ⟨by omega, by omega⟩, hagain⟩
  -- The head is elaborated after them.
  have hdrawn := h.draw hsu (Nat.le_refl s'.toNat)
  rcases hheaddirect with ⟨span', name, hname, hname'⟩ | ⟨hname, hheaddirect⟩
  · -- The head is a name, which is resolved again with all the arguments.
    rw [elaborateHead_of_ident hname] at hf
    obtain ⟨hsettles, hoperator⟩ := Surface.of_isDirectHead hname'
    rw [← hcount, ← hlength] at hsettles
    obtain ⟨rfl, hshape, written, hwritten, hf'⟩ :=
      hdrawn.resolve hfree hesboth hfp hfplain hsettles hf
    refine ⟨?_, ⟨Nat.le_refl _, Nat.le_add_right _ _⟩, ?_⟩
    · rcases hshape with ⟨x, rfl⟩ | ⟨ls, rfl⟩ <;> trivial
    obtain ⟨a, as, hcons⟩ : ∃ a as, es ++ more = a :: as := by
      refine List.exists_cons_of_ne_nil fun hnil => args.toList_ne_nil ?_
      rw [hnil, List.length_nil] at htotal
      exact List.eq_nil_of_length_eq_zero (by omega)
    have hspine (hapart : KeepsApart (closeVars level d 0 f) (es ++ more).length) :
        Again env n Γ' ρ level d s' (mkApp f (es ++ more)) := by
      rw [hcons] at hapart hf' hall ⊢
      exact .mkApp_of_resolve hwritten hapart hf' hall
    rcases hshape with ⟨x, rfl⟩ | ⟨ls, rfl⟩
    · exact hspine fun op ls hhead => nomatch hhead
    rcases hoperator with harity | ⟨hiff, hle, hparams⟩
    · -- The name has too few arguments to be an operator with operands.
      refine hspine fun op ls' hconst => .inl ?_
      obtain ⟨hconstant, -⟩ := Expr.const.inj hconst
      have := harity op hconstant
      simpa [closeVars, mapVars, appArgs, appArgsAux, htotal] using this
    · -- It is an equivalence, which is written with its sign.
      obtain rfl := levels_eq_nil_of_resolve hparams hf
      rw [hiff]
      exact .mkApp_iff (htotal ▸ hle) hall
  · -- The head stands for itself, with more arguments around it than the application.
    rw [elaborateHead_of_ne_ident hname] at hf
    refine hhead _ hheaddirect hf hdrawn (es ++ more) htotal he hplain (by omega) hs' hall

mutual

/-- A direct term is elaborated again from what is printed for it. -/
theorem repeats_elaborate (hfree : env.FVarFree) (henv : env.Closed) :
    ∀ (w : Surface.Term) (further : Nat), w.isDirect env further → RepeatsUnder env n w further
  | .ident span name, further, h => by
    obtain rfl : further = 0 := by simpa [Surface.Term.isDirect] using h
    exact repeats_ident hfree span name
  | .prop span, further, _ => by
    refine Repeats.under (w := .prop span) (repeats_pure trivial (fun _ => rfl)
      fun _ _ _ _ => ?_) rfl further
    rw [Expr.prop, closeVars, mapVars, written]
    rfl
  | .type span, further, _ => by
    refine Repeats.under (w := .type span) (repeats_pure trivial (fun _ => rfl)
      fun _ _ _ _ => ?_) rfl further
    rw [Expr.type, closeVars, mapVars, written]
    rfl
  | .nat span k, further, _ => by
    refine Repeats.under (w := .nat span k) (repeats_pure trivial (fun _ => rfl)
      fun _ _ _ _ => ?_) rfl further
    rw [closeVars, mapVars, written]
    rfl
  | .str span text, further, _ => by
    refine Repeats.under (w := .str span text) (repeats_pure trivial (fun _ => rfl)
      fun _ _ _ _ => ?_) rfl further
    rw [closeVars, mapVars, written]
    rfl
  | .paren _ w, further, h => repeats_elaborate hfree henv w further h
  | .app span head args, further, h =>
    repeats_app hfree span h (repeats_elaborate hfree henv head)
      (repeats_elaborateArgs hfree henv args)
  | .arrow span dom cod, further, h =>
    (repeats_arrow span (repeats_elaborate hfree henv dom 0 (Bool.and_eq_true_iff.mp h).1).repeats
      (repeats_elaborate hfree henv cod 0 (Bool.and_eq_true_iff.mp h).2).repeats).under rfl further
  | .binary span op lhs rhs, further, h =>
    (repeats_binary hfree henv span op
      (repeats_elaborate hfree henv lhs 0 (Bool.and_eq_true_iff.mp h).1).repeats
      (repeats_elaborate hfree henv rhs 0 (Bool.and_eq_true_iff.mp h).2).repeats).under rfl further
  | .pi span binders body, further, h =>
    Repeats.under (w := .pi span binders body) (repeats_elaborateBinders hfree henv (.inl rfl)
      (repeats_elaborate hfree henv body 0 (Bool.and_eq_true_iff.mp h).2).repeats binders
      (Bool.and_eq_true_iff.mp h).1) rfl further
  | .lam span binders body, further, h =>
    Repeats.under (w := .lam span binders body) (repeats_elaborateBinders hfree henv (.inr rfl)
      (repeats_elaborate hfree henv body 0 (Bool.and_eq_true_iff.mp h).2).repeats binders
      (Bool.and_eq_true_iff.mp h).1) rfl further

theorem repeats_elaborateArgs (hfree : env.FVarFree) (henv : env.Closed) :
    ∀ args : Surface.Args, args.isDirect env → RepeatsArgs env n args
  | .one a, ha => by
    intro Γ s es t hr Γ' ρ p level d s' h hes hs hs'
    obtain ⟨e, u, he, hlast⟩ := returns_bind.mp hr
    obtain ⟨rfl, rfl⟩ := returns_pure.mp hlast
    obtain ⟨hp, hplain⟩ := hes e List.mem_cons_self
    simp only [List.map_cons, List.map_nil, List.sum_cons, List.sum_nil] at hs hs' ⊢
    obtain ⟨hscoped, ⟨hsu, hus⟩, hagain⟩ :=
      (repeats_elaborate hfree henv a 0 ha).repeats.again he h hp hplain (by omega) (by omega)
    exact ⟨rfl, ⟨hsu, by omega⟩, by simpa using ⟨hscoped, hagain⟩⟩
  | .cons a rest, hdirect => by
    intro Γ s es t hr Γ' ρ p level d s' h hes hs hs'
    obtain ⟨ha, hrest⟩ := Bool.and_eq_true_iff.mp hdirect
    obtain ⟨e, u, he, hparts⟩ := returns_bind.mp hr
    obtain ⟨es', v, hes', hlast⟩ := returns_bind.mp hparts
    obtain ⟨rfl, rfl⟩ := returns_pure.mp hlast
    obtain ⟨⟨hp, hplain⟩, hes⟩ := List.forall_mem_cons.mp hes
    rw [List.map_cons, List.sum_cons] at hs hs' ⊢
    obtain ⟨hscoped, ⟨hsu, hus⟩, hagain⟩ :=
      (repeats_elaborate hfree henv a 0 ha).repeats.again he h hp hplain (by omega) (by omega)
    obtain ⟨hcount, ⟨huv, hvu⟩, hrestagain⟩ := repeats_elaborateArgs hfree henv rest hrest hes'
      (h.draw hsu (Nat.le_refl _)) hes (by omega) (by omega)
    exact ⟨congrArg (· + 1) hcount, ⟨by omega, by omega⟩,
      List.forall_mem_cons.mpr ⟨⟨hscoped, hagain⟩, hrestagain⟩⟩

theorem repeats_elaborateBinders (hfree : env.FVarFree) (henv : env.Closed)
    {mk : BinderInfo → Expr → Expr → Expr} (hmk : mk = .pi ∨ mk = .lam)
    {body : LocalContext → ElabM Expr} (hbody : Repeats env n body) :
    ∀ binders : Surface.Binders, binders.isDirect env →
      Repeats env n fun Γ => elaborateBinders env n mk body Γ binders
  | .one b type, h =>
    Repeats.openBinder hfree (repeats_elaborate hfree henv type 0 h).repeats hbody hmk b.name
  | .cons b type rest, h =>
    Repeats.openBinder hfree
      (repeats_elaborate hfree henv type 0 (Bool.and_eq_true_iff.mp h).1).repeats
      (repeats_elaborateBinders hfree henv hmk hbody rest (Bool.and_eq_true_iff.mp h).2) hmk b.name

end

/-! ### Places in the text -/

mutual

/-- It does not matter to its meaning where a term stands. -/
theorem elaborate_bare (Γ : LocalContext) : ∀ w : Surface.Term,
    elaborate env n Γ w.bare = elaborate env n Γ w
  | .ident .. | .prop _ | .type _ | .nat .. | .str .. => rfl
  | .paren _ w => elaborate_bare Γ w
  | .app _ head args => by
    have hhead : ∀ as, elaborateHead env n Γ head.bare as = elaborateHead env n Γ head as := by
      intro as
      unfold elaborateHead
      rw [Surface.Term.unparen_bare]
      cases head.unparen with
      | ident => rfl
      | _ => exact elaborate_bare Γ head
    rw [Surface.Term.bare, elaborate_app, elaborate_app, elaborateArgs_bare Γ args, funext hhead]
  | .arrow _ dom cod => by
    rw [Surface.Term.bare, elaborate, elaborate, elaborate_bare Γ dom, elaborate_bare Γ cod]
  | .binary _ op lhs rhs => by
    rw [Surface.Term.bare, elaborate, elaborate, elaborate_bare Γ lhs, elaborate_bare Γ rhs]
  | .pi _ binders body => by
    rw [Surface.Term.bare, elaborate, elaborate,
      funext fun Γ => elaborate_bare Γ body]
    exact elaborateBinders_bare Γ binders
  | .lam _ binders body => by
    rw [Surface.Term.bare, elaborate, elaborate,
      funext fun Γ => elaborate_bare Γ body]
    exact elaborateBinders_bare Γ binders

theorem elaborateArgs_bare (Γ : LocalContext) : ∀ args : Surface.Args,
    elaborateArgs env n Γ args.bare = elaborateArgs env n Γ args
  | .one a => by rw [Surface.Args.bare, elaborateArgs, elaborateArgs, elaborate_bare Γ a]
  | .cons a rest => by
    rw [Surface.Args.bare, elaborateArgs, elaborateArgs, elaborate_bare Γ a,
      elaborateArgs_bare Γ rest]

theorem elaborateBinders_bare {mk : BinderInfo → Expr → Expr → Expr}
    {body : LocalContext → ElabM Expr} (Γ : LocalContext) : ∀ binders : Surface.Binders,
      elaborateBinders env n mk body Γ binders.bare = elaborateBinders env n mk body Γ binders
  | .one b type => by
    rw [Surface.Binders.bare, elaborateBinders, elaborateBinders, elaborate_bare Γ type]
  | .cons b type rest => by
    rw [Surface.Binders.bare, elaborateBinders, elaborateBinders, elaborate_bare Γ type,
      funext fun Γ => elaborateBinders_bare Γ rest]

end

/-! ### Printed terms -/

theorem parallel_empty :
    Parallel .empty .empty id (fun _ => False) (fun _ => 0) 0 firstBinder firstBinder where
  injective := Function.injective_id
  inner _ _ := rfl
  closed := nofun
  below _ := nofun
  type _ := nofun
  depth _ := nofun
  named _ := nofun
  apart _ _ := rfl

theorem rename_id (e : Expr) : e.rename id = e :=
  rename_eq_self (fvarsIn_of_forall (fun _ => rfl) e)

/-- The printed form of an elaborated term is read and elaborated as the same term:
in every environment, if the text was direct, all that is printed of its term can be
read, no constant in it is called like a bound variable around it, and it is not too
large. -/
theorem elaborate_render (henv : env.Checked) (hfree : env.FVarFree) {w : Surface.Term}
    (hdirect : w.isDirect env 0) (he : runFresh (elaborate env n .empty w) = some (.ok e))
    (hshown : e.Shown) (hlet : e.letFree) (hapart : e.ApartFromBinders 0)
    (hsize : e.size < 2 ^ 32) :
    ∃ w', Surface.Term.parse e.render = .ok w' ∧
      runFresh (elaborate env n .empty w') = some (.ok e) := by
  obtain ⟨t, he⟩ := runFresh_eq_ok.mp he
  have hclosed : e.FVarsIn fun _ => False :=
    elaborate_fvarsIn hfree.fvarsIn (Γ := .empty) nofun w he
  have hroom : firstBinder.toNat + e.size ≤ 2 ^ 62 := by
    have : firstBinder.toNat = 2 ^ 61 := rfl
    omega
  obtain ⟨hscoped, -, hwritten⟩ := (repeats_elaborate hfree henv.closed w 0 hdirect).repeats he
    parallel_empty hclosed ⟨hlet, hapart, by omega⟩ hroom hroom
  obtain ⟨t', he', -⟩ := hwritten Precedence.binder
  rw [closeVars_eq_self hclosed, rename_id] at he'
  have hnesting := nesting_le_size e
  obtain ⟨w', hw', hbare⟩ := parse_pretty_written (fun _ => none) hshown hscoped (by omega)
  refine ⟨w', hw', runFresh_eq_ok.mpr ⟨t', ?_⟩⟩
  rwa [← elaborate_bare, hbare, elaborate_bare]

/-- An equivalence under two quantifiers, whose names the printer changes; it is written with
its name, and between the arguments of a function stands a parenthesis. -/
theorem elaborate_render_function_equation :
    ∃ w' e, Surface.Term.parse
        "∀ (x : Nat → Nat → Nat), ∀ (x_1 : Nat), x x_1 x_1 = x_1 ↔ \"a\" = \"a\"" = .ok w' ∧
      runFresh (elaborate ⟨Prelude.constants⟩ 3 .empty w') = some (.ok e) := by
  let nat : Surface.Term := .ident .nowhere "Nat"
  let f : Surface.Term := .ident .nowhere "f"
  let n : Surface.Term := .ident .nowhere "n"
  let text : Surface.Term := .str .nowhere "a"
  let applied : Surface.Term := .app .nowhere (.paren .nowhere (.app .nowhere f (.one n))) (.one n)
  let w : Surface.Term := .pi .nowhere
    (.cons ⟨.nowhere, "f"⟩ (.arrow .nowhere nat (.arrow .nowhere nat nat))
      (.one ⟨.nowhere, "n"⟩ nat))
    (.app .nowhere (.ident .nowhere "Iff")
      (.cons (.binary .nowhere .eq applied n) (.one (.binary .nowhere .eq text text))))
  let number : Expr := .const Vocabulary.nat []
  let letter : Expr := .lit (.str "a")
  let e : Expr := .pi .default (.pi .default number (.pi .default number number))
    (.pi .default number (.mkIff
      (.mkEq (.succ .zero) number (.app (.app (.bvar 1) (.bvar 0)) (.bvar 0)) (.bvar 0))
      (.mkEq (.succ .zero) (.const Vocabulary.string []) letter letter)))
  have he : runFresh (elaborate ⟨Prelude.constants⟩ 3 .empty w) = some (.ok e) := by rfl
  have hnumber : number.Shown := .const (by decide +kernel)
  have hletter : letter.Shown := .text fun c hc => by
    obtain rfl : c = 'a' := by simpa using hc
    decide
  have hshown : e.Shown := .pi (.pi hnumber (.pi hnumber hnumber)) (.pi hnumber
    (.operation rfl (.operation rfl (.app rfl (.app rfl (.bvar 1) (.bvar 0)) (.bvar 0)) (.bvar 0))
      (.operation rfl hletter hletter)))
  have hrender : e.render =
      "∀ (x : Nat → Nat → Nat), ∀ (x_1 : Nat), x x_1 x_1 = x_1 ↔ \"a\" = \"a\"" := by
    decide +kernel
  obtain ⟨w', hw', he'⟩ := elaborate_render checked_prelude fvarFree_prelude (w := w)
    (by decide +kernel) he hshown (by decide) (by decide +kernel) (by decide)
  exact ⟨w', e, hrender ▸ hw', he'⟩

end Elaboration

/-! ### A constant that is called like a bound variable -/

namespace Elaboration

namespace CalledLikeBinder

/-- The prelude and a number with the name that the printer gives to the outermost
bound variable. -/
def env : Environment :=
  ⟨Prelude.constants ++ [⟨.simple "x", [], .const Vocabulary.nat [], none⟩]⟩

/-- That every number is equal to `rhs`. -/
def everyNumberIs (rhs : Expr) : Expr :=
  .pi .default (.const Vocabulary.nat [])
    (.mkEq (.succ .zero) (.const Vocabulary.nat []) (.bvar 0) rhs)

/-- That every number, which is called `name`, is equal to `x`, as it is read: with
the places in the text of the whole, the name, the type, the equation and its sides. -/
def source (name : String) (whole binder type equation lhs rhs : Surface.Span) : Surface.Term :=
  .pi whole (.one ⟨binder, name⟩ (.ident type "Nat"))
    (.binary equation .eq (.ident lhs name) (.ident rhs "x"))

theorem extendsPrelude_env : env.ExtendsPrelude := by
  have h : Environment.declareAll ⟨Prelude.constants⟩ 50
      (env.constants.drop Prelude.constants.length) = some (env, .ok ()) := by rfl
  exact Environment.of_declareAll .declare Environment.extendsPrelude_prelude h

end CalledLikeBinder

open CalledLikeBinder in
/-- The printer gives a bound variable the name of a constant that stands in its
scope, and another statement is read from what it prints. -/
theorem elaborate_render_of_called_like_binder :
    env.ExtendsPrelude ∧
    (∃ w, Surface.Term.parse "forall (y : Nat), y = x" = .ok w ∧ ∀ n,
      runFresh (elaborate env (n + 2) .empty w) =
        some (.ok (everyNumberIs (.const (.simple "x") [])))) ∧
    (everyNumberIs (.const (.simple "x") [])).render = "∀ (x : Nat), x = x" ∧
    (∃ w, Surface.Term.parse "∀ (x : Nat), x = x" = .ok w ∧ ∀ n,
      runFresh (elaborate env (n + 2) .empty w) = some (.ok (everyNumberIs (.bvar 0)))) ∧
    (everyNumberIs (.const (.simple "x") [])).eqModMData (everyNumberIs (.bvar 0)) = false :=
  ⟨extendsPrelude_env,
    ⟨source "y" ⟨0, 23⟩ ⟨8, 9⟩ ⟨12, 15⟩ ⟨18, 23⟩ ⟨18, 19⟩ ⟨22, 23⟩, by decide +kernel,
      fun n => by rfl⟩, by decide +kernel,
    ⟨source "x" ⟨0, 20⟩ ⟨5, 6⟩ ⟨9, 12⟩ ⟨15, 20⟩ ⟨15, 16⟩ ⟨19, 20⟩, by decide +kernel,
      fun n => by rfl⟩, by decide⟩

end Elaboration

end Pinpoint
