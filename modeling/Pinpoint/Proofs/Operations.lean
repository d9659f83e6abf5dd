/-
Operations, read and checked.

The elaborator reads the type of an operation and its universe off the left
operand, and never looks at the right one.  What it puts together is what the
checker accepts of it: the checker asks of the right operand that its type is
equal by definition to that of the left one, and of nothing else.

* `infers_operation_iff` — which operations the checker accepts;
* `runFresh_elaborate_binary_iff` — which operations are read, and as what;
* `elaborate_operation` — both, for operands that are read;
* `operation_of_captured_variable` — with a variable of the checker in the type of
  a constant, the checker does not find the type again that was read off.
-/
import Pinpoint.Proofs.Constants
import Pinpoint.Proofs.Declarations
import Pinpoint.Proofs.Resumption

namespace Pinpoint

/-! ### Checked operations -/

namespace Environment

open Pinpoint.Expr

variable {env : Environment} {Γ : LocalContext} {op : Operator} {u : Level} {L R S T X : Expr}

/-- A type that the checker finds to have a universe has a type that reduces to it. -/
theorem exists_of_ensureSort {fuel : Nat}
    (h : (Checker.ensureSort ⟨env, Γ, fuel⟩ T).runFresh = some (.ok u)) :
    ∃ S, env.Infers Γ T S ∧ env.Reduces S (.sort u) := by
  obtain ⟨t, h⟩ := CheckM.runFresh_eq_ok.mp h
  obtain ⟨S, t', hS, hu⟩ := CheckM.returns_bind.mp h
  obtain ⟨hwhnf, -⟩ := sortOfType_returns_iff.mp hu
  exact ⟨S, ⟨fuel, CheckM.runFresh_eq_ok.mpr ⟨t', hS⟩⟩, fuel, hwhnf⟩

/-- An operation on a left operand of a type in the given universe is accepted exactly
if the right operand has an equal type. -/
theorem ExtendsPrelude.infers_operation_iff (henv : env.ExtendsPrelude) (hfree : env.FVarFree)
    (hΓ : Γ.FVarsIn FVarId.IsOuter) (hop : op ≠ .iff)
    (hlimits : (Expr.mkApp (.const op.constant [u]) [T, L, R]).WithinLimits)
    (hL : env.Infers Γ L T) (hT : env.Infers Γ T S) (hS : env.Reduces S (.sort u)) :
    env.Infers Γ (Expr.mkApp (.const op.constant [u]) [T, L, R]) X ↔
      X = (if op = .eq then .prop else T) ∧ ∃ A, env.Infers Γ R A ∧ env.DefEq A T := by
  obtain ⟨-, hparts⟩ := WithinLimits.mkApp (f := .const op.constant [u]) hlimits
  have hgives : ∀ {a A : Expr}, a ∈ [T, L, R] → env.Infers Γ a A → env.Gives Γ a A :=
    fun ha hA => hfree.gives_of_infers hΓ (hparts _ ha).outer (hparts _ ha).fits hA
  have huniverse : env.Checks Γ T (.sort u) :=
    ⟨S, hgives (by simp) hT, .of_reduces hS ⟨1, rfl⟩⟩
  have hleft : env.Checks Γ L T := ⟨T, hgives (by simp) hL, .refl T⟩
  have hput : env.Checks Γ R T → env.Gives Γ (Expr.mkApp (.const op.constant [u]) [T, L, R])
      (if op = .eq then .prop else T) := fun hright =>
    henv.gives_operation hop huniverse hleft hright fun a ha => (hparts a ha).nesting
  constructor
  · intro h
    have hX := hfree.gives_of_infers hΓ hlimits.outer hlimits.fits h
    obtain ⟨-, -, hright⟩ := henv.of_gives_operation hfree hΓ hop hlimits hX
    have ⟨A, hA, hAT⟩ := hright
    exact ⟨hX.det (hput hright) hlimits.fits, A, hA.infers (hparts R (by simp)).fits, hAT⟩
  · rintro ⟨rfl, A, hA, hAT⟩
    exact (hput ⟨A, hgives (by simp) hA, hAT⟩).infers hlimits.fits

end Environment

/-! ### Operations that are read -/

/-- A computation has at most one result. -/
theorem ElabM.Returns.det {α : Type} {m : ElabM α} {a b : α} {s t u : UInt64}
    (h : m.Returns s a t) (h' : m.Returns s b u) : a = b ∧ t = u := by
  simpa using h.symm.trans h'

namespace Elaboration

open ElabM Pinpoint.Expr

variable {env : Environment} {fuel : Nat} {Γ : LocalContext} {op : Operator}
  {l r : Surface.Term} {e L R T : Expr}

theorem contains_of_extendsPrelude (henv : env.ExtendsPrelude) (hop : op ≠ .iff) :
    env.contains op.constant := by
  obtain ⟨info, hinfo, -⟩ :=
    Option.map_eq_some_iff.mp (Environment.ExtendsPrelude.instantiateType_operation hop .zero)
  rw [Environment.contains, henv.find?_eq hinfo]
  rfl

/-- A term that is read after another one is read as if it were the first. -/
theorem returns_after (henv : env.Closed) (hfree : env.FVarFree)
    (hΓ : Γ.FVarsIn FVarId.IsLocal) (hclosed : Γ.Closed)
    (hbinders : l.binderCount + r.binderCount ≤ 2 ^ 61) (hR : R.Openable)
    {a : Expr} {t : UInt64} (hl : (elaborate env fuel Γ l).Returns firstBinder a t)
    (hr : runFresh (elaborate env fuel Γ r) = some (.ok R)) :
    ∃ s, (elaborate env fuel Γ r).Returns t R s := by
  obtain ⟨s, hr⟩ := runFresh_eq_ok.mp hr
  obtain ⟨j, hj, rfl⟩ := (elaborate_reading l).drawsAtMost Γ hl
  have hfirst := toNat_firstBinder
  have hmoved : (firstBinder + .ofNat j).toNat = 2 ^ 61 + j := by
    rw [Supply.toNat_add_ofNat (by omega), hfirst]
  have hle : firstBinder ≤ firstBinder + .ofNat j := by
    rw [UInt64.le_iff_toNat_le]
    omega
  exact elaborate_returns_later henv hfree hΓ hclosed UInt64.le_rfl hle (by omega) (by omega) hR hr

/-- Operands that are read are put together exactly if the type of the left one has a
universe. -/
theorem runFresh_elaborate_binary_iff (span : Surface.Span) (henv : env.ExtendsPrelude)
    (hfree : env.FVarFree)
    (hΓ : Γ.FVarsIn FVarId.IsLocal) (hclosed : Γ.Closed) (hop : op ≠ .iff)
    (hbinders : l.binderCount + r.binderCount ≤ 2 ^ 61)
    (hL : runFresh (elaborate env fuel Γ l) = some (.ok L))
    (hR : runFresh (elaborate env fuel Γ r) = some (.ok R)) (hopen : R.Openable)
    (hT : (Checker.inferType ⟨env, Γ, fuel⟩ L).runFresh = some (.ok T)) :
    runFresh (elaborate env fuel Γ (.binary span op l r)) = some (.ok e) ↔
      ∃ u, (Checker.ensureSort ⟨env, Γ, fuel⟩ T).runFresh = some (.ok u) ∧
        e = .mkApp (.const op.constant [u]) [T, L, R] := by
  obtain ⟨t, hl⟩ := runFresh_eq_ok.mp hL
  obtain ⟨s, hr⟩ := returns_after henv.checked.closed hfree hΓ hclosed hbinders hopen hl hR
  -- Both operands are read, the right one behind the left one; what is left is to put
  -- them together.
  have hoperation : (∃ v, (elaborate env fuel Γ (.binary span op l r)).Returns firstBinder e v) ↔
      ∃ v, (operation env fuel Γ op L R).Returns s e v := by
    rw [elaborate]
    constructor
    · rintro ⟨v, h⟩
      obtain ⟨L', t', hl', h⟩ := returns_bind.mp h
      obtain ⟨rfl, rfl⟩ := hl'.det hl
      obtain ⟨R', s', hr', h⟩ := returns_bind.mp h
      obtain ⟨rfl, rfl⟩ := hr'.det hr
      exact ⟨v, h⟩
    · rintro ⟨v, h⟩
      exact ⟨v, returns_bind.mpr ⟨L, t, hl, returns_bind.mpr ⟨R, s, hr, h⟩⟩⟩
  rw [runFresh_eq_ok, hoperation]
  constructor
  · rintro ⟨v, h⟩
    obtain ⟨hiff, -⟩ | ⟨-, -, T', t', u, hT', hu, rfl⟩ := returns_operation.mp h
    · exact absurd hiff hop
    · obtain ⟨hT', -⟩ := returns_ofCheck.mp hT'
      obtain ⟨hu, -⟩ := returns_ofCheck.mp hu
      obtain rfl : T' = T := by
        simpa using (CheckM.runFresh_eq_ok.mpr hT').symm.trans hT
      exact ⟨u, CheckM.runFresh_eq_ok.mpr hu, rfl⟩
  · rintro ⟨u, hu, rfl⟩
    refine ⟨s, returns_operation.mpr (.inr ⟨hop, contains_of_extendsPrelude henv hop, T, s, u,
      ?_, ?_, rfl⟩)⟩
    · exact returns_ofCheck.mpr ⟨CheckM.runFresh_eq_ok.mp hT, rfl⟩
    · exact returns_ofCheck.mpr ⟨CheckM.runFresh_eq_ok.mp hu, rfl⟩

/-- Operands that are read make an operation exactly if the type of the left one has a
universe.  The checker accepts the operation exactly if the right operand has a type
that is equal by definition, and gives it that type, or that of propositions to an
equation. -/
theorem elaborate_operation (span : Surface.Span) (henv : env.ExtendsPrelude)
    (hfree : env.FVarFree)
    (hΓ : Γ.FVarsIn FVarId.IsLocal) (hclosed : Γ.Closed) (hop : op ≠ .iff)
    (hbinders : l.binderCount + r.binderCount ≤ 2 ^ 61)
    (hL : runFresh (elaborate env fuel Γ l) = some (.ok L))
    (hR : runFresh (elaborate env fuel Γ r) = some (.ok R)) (hopen : R.Openable)
    (hT : (Checker.inferType ⟨env, Γ, fuel⟩ L).runFresh = some (.ok T)) (e : Expr) :
    (runFresh (elaborate env fuel Γ (.binary span op l r)) = some (.ok e) ↔
      ∃ u, (Checker.ensureSort ⟨env, Γ, fuel⟩ T).runFresh = some (.ok u) ∧
        e = .mkApp (.const op.constant [u]) [T, L, R]) ∧
    (runFresh (elaborate env fuel Γ (.binary span op l r)) = some (.ok e) → e.Openable →
      ∀ X, env.Infers Γ e X ↔
        X = (if op = .eq then .prop else T) ∧ ∃ A, env.Infers Γ R A ∧ env.DefEq A T) := by
  have hread : ∀ e, runFresh (elaborate env fuel Γ (.binary span op l r)) = some (.ok e) ↔
      ∃ u, (Checker.ensureSort ⟨env, Γ, fuel⟩ T).runFresh = some (.ok u) ∧
        e = .mkApp (.const op.constant [u]) [T, L, R] := fun _ =>
    runFresh_elaborate_binary_iff span henv hfree hΓ hclosed hop hbinders hL hR hopen hT
  refine ⟨hread e, fun h he X => ?_⟩
  have houter : ∀ x : FVarId, x.IsLocal → x.IsOuter := fun x hx => by
    rw [FVarId.isOuter_iff]
    have := FVarId.isLocal_iff.mp hx
    omega
  obtain ⟨t, hreturns⟩ := runFresh_eq_ok.mp h
  have hfvars : e.FVarsIn FVarId.IsOuter :=
    (elaborate_fvarsIn hfree.fvarsIn hΓ (.binary span op l r) hreturns).mono houter
  obtain ⟨u, hu, rfl⟩ := (hread e).mp h
  obtain ⟨S, hS, hreduces⟩ := Environment.exists_of_ensureSort hu
  exact henv.infers_operation_iff hfree (hΓ.mono houter) hop (he.withinLimits hfvars) ⟨fuel, hT⟩ hS
    hreduces

/-! ### Examples -/

namespace OperationExample

/-- A context with a proposition `p`. -/
def context : LocalContext := LocalContext.empty.push ⟨0⟩ (.simple "p") .prop

/-- `fun (x : dom) => body`. -/
def function (dom body : Surface.Term) : Surface.Term := .lam ⟨0, 0⟩ (.one ⟨⟨0, 0⟩, "x"⟩ dom) body

/-- `fun (x : Prop) => x`. -/
def identity : Surface.Term := function (.prop ⟨0, 0⟩) (.ident ⟨0, 0⟩ "x")

/-- `(fun (x : Type) => x) Prop`. -/
def applied : Surface.Term :=
  .app ⟨0, 0⟩ (.paren ⟨0, 0⟩ (function (.type ⟨0, 0⟩) (.ident ⟨0, 0⟩ "x"))) (.one (.prop ⟨0, 0⟩))

/-- `fun (x : (fun (x : Type) => x) Prop) => p`. -/
def constant : Surface.Term := function applied (.ident ⟨0, 0⟩ "p")

/-- `fun (x : Prop) => k x`. -/
def expanded : Surface.Term :=
  function (.prop ⟨0, 0⟩) (.app ⟨0, 0⟩ (.ident ⟨0, 0⟩ "k") (.one (.ident ⟨0, 0⟩ "x")))

end OperationExample

open OperationExample in
/-- The types of two functions are equal, but not the same. -/
theorem elaborate_sum_of_functions :
    context.FVarsIn FVarId.IsLocal ∧ context.Closed ∧ ∃ e,
      runFresh (elaborate ⟨Prelude.constants⟩ 9 context
        (.binary ⟨0, 0⟩ .add identity constant)) = some (.ok e) ∧
      Environment.Infers ⟨Prelude.constants⟩ context e (.pi .default .prop .prop) := by
  have hΓ : context.FVarsIn FVarId.IsLocal := by decide
  have hclosed : context.Closed := by
    show ∀ entry ∈ context.entries, entry.type.Scoped 0
    decide
  let L : Expr := .lam .default .prop (.bvar 0)
  let dom : Expr := .app (.lam .default .type (.bvar 0)) .prop
  let R : Expr := .lam .default dom (.fvar ⟨0⟩)
  let T : Expr := .pi .default .prop .prop
  have hL : runFresh (elaborate ⟨Prelude.constants⟩ 9 context identity) = some (.ok L) := by rfl
  have hR : runFresh (elaborate ⟨Prelude.constants⟩ 9 context constant) = some (.ok R) := by rfl
  have hT : (Checker.inferType ⟨⟨Prelude.constants⟩, context, 9⟩ L).runFresh = some (.ok T) := by
    rfl
  have hu : (Checker.ensureSort ⟨⟨Prelude.constants⟩, context, 9⟩ T).runFresh =
      some (.ok .one) := by rfl
  have hA : Environment.Infers ⟨Prelude.constants⟩ context R (.pi .default dom .prop) :=
    ⟨9, by rfl⟩
  have hAT : Environment.DefEq ⟨Prelude.constants⟩ (.pi .default dom .prop) T := ⟨9, by rfl⟩
  have hopen : ∀ e : Expr, e.FVarsIn FVarId.IsOuter → e.letFree → e.nesting < 2 ^ 31 →
      e.size < 2 ^ 63 → e.Openable := fun e houter hlet hnesting hsize =>
    (WithinLimits.of_letFree houter hlet hnesting hsize).openable
  have hop : Operator.add ≠ .iff := by decide
  obtain ⟨hread, hchecked⟩ := elaborate_operation ⟨0, 0⟩ Environment.extendsPrelude_prelude
    Environment.fvarFree_prelude hΓ hclosed hop (by decide) hL hR
    (hopen R (by decide) (by decide) (by decide) (by decide)) hT
    (.mkApp (.const Vocabulary.add [.one]) [T, L, R])
  have he := hread.mpr ⟨.one, hu, rfl⟩
  have hcount := hopen (.mkApp (.const Vocabulary.add [.one]) [T, L, R]) (by decide) (by decide)
    (by decide) (by decide)
  exact ⟨hΓ, hclosed, _, he, (hchecked he hcount T).mpr ⟨rfl, _, hA, hAT⟩⟩

open OperationExample Environment.DeclarationExample in
/-- The type that is read off the left operand holds a variable that the checker draws
itself.  When it looks at the operation it has drawn that variable for the type already,
and finds another one. -/
theorem operation_of_captured_variable :
    Environment.ExtendsPrelude ⟨Prelude.constants ++ [capturing]⟩ ∧ ∃ L T u e,
      runFresh (elaborate ⟨Prelude.constants ++ [capturing]⟩ 9 .empty expanded) = some (.ok L) ∧
      (Checker.inferType ⟨⟨Prelude.constants ++ [capturing]⟩, .empty, 9⟩ L).runFresh =
        some (.ok T) ∧
      (Checker.ensureSort ⟨⟨Prelude.constants ++ [capturing]⟩, .empty, 9⟩ T).runFresh =
        some (.ok u) ∧
      runFresh (elaborate ⟨Prelude.constants ++ [capturing]⟩ 9 .empty
        (.binary ⟨0, 0⟩ .eq expanded expanded)) = some (.ok e) ∧
      ∀ X, ¬ Environment.Infers ⟨Prelude.constants ++ [capturing]⟩ .empty e X := by
  have haccepted : Environment.declare ⟨Prelude.constants⟩ 5 capturing =
      some (.ok ⟨Prelude.constants ++ [capturing]⟩) := by rfl
  let L : Expr := .lam .default .prop (.app (.const (.simple "k") []) (.bvar 0))
  let T : Expr := .pi .default .prop (.bvar 0)
  have hrefused : (Environment.inferType ⟨Prelude.constants ++ [capturing]⟩ 9 .empty
      (.mkEq .zero T L L)).runFresh = some (.error (.typeMismatch T
        (.pi .default .prop (.fvar ⟨Checker.firstFresh⟩)))) := by rfl
  exact ⟨Environment.extendsPrelude_prelude.declare haccepted, L, T, .zero, .mkEq .zero T L L,
    by rfl, by rfl, by rfl, by rfl, fun X => Environment.not_infers_of_error hrefused⟩

end Elaboration

end Pinpoint
