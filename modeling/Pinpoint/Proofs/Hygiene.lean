/-
Inference and what is around a term.

Inference reads a context at the free variables of a term, and opens binders
with variables of its own that it abstracts again.  So what type a term has
depends neither on the rest of the context nor on where the supply of
variables stands, and none of those variables is left in the type.

* `returns_of_agree` — one type, in all contexts that agree at the variables of
  the term and from wherever in its range the supply draws;
* `fvarsIn_type_of_inferType` — the variables of the type are those of the term
  and of their types;
* `inferType_local` — both, with what is known of a term that has a type.
-/
import Pinpoint.Proofs.Declarations

namespace Pinpoint

/-- Whether a free variable occurs in a term, or in the type of one that
does. -/
def LocalContext.Reaches (Γ : LocalContext) (e : Expr) (x : FVarId) : Prop :=
  e.hasFVar x ∨ ∃ y entry, e.hasFVar y ∧ Γ.find? y = some entry ∧ entry.type.hasFVar x

namespace Environment

open Pinpoint.Expr

variable {env : Environment} {Γ Γ' : LocalContext} {e T : Expr} {n : Nat} {s s' t : UInt64}

/-- A type in one context is the type in all that agree with it at the
variables of the term, wherever the supply stands. -/
theorem returns_of_agree (hfree : env.FVarFree) (he : e.FVarsIn FVarId.IsOuter)
    (hΓ' : Γ'.FVarsIn FVarId.IsOuter)
    (hagree : ∀ x, e.hasFVar x → (Γ.find? x).map LocalEntry.type = (Γ'.find? x).map LocalEntry.type)
    (hs : Checker.firstFresh ≤ s) (hs' : Checker.firstFresh ≤ s')
    (hroom : s.toNat + e.openings n < 2 ^ 64) (hroom' : s'.toNat + e.openings n < 2 ^ 64)
    (h : (env.inferType n Γ e).Returns s T t) :
    (env.inferType n Γ' e).Returns s' T (s' + .ofNat (e.openings n)) := by
  rw [inferType_congr_types hagree (fvarsIn_iff.mpr fun _ => id)] at h
  exact hfree.returns_of_returns hΓ' he h hs hs' hroom.le hroom'.le

/-- The free variables of a type are in reach of the term, and none is one of
the checker's own. -/
theorem fvarsIn_type_of_inferType (hfree : env.FVarFree) (he : e.FVarsIn FVarId.IsOuter)
    (hΓ : Γ.FVarsIn FVarId.IsOuter) (h : (env.inferType n Γ e).Returns s T t) :
    T.FVarsIn fun x => Γ.Reaches e x ∧ x.IsOuter := by
  refine FVarsIn.inferType (p := fun x => e.hasFVar x) hfree.fvarsIn
    (fun x hx => ⟨.inl hx, fvarsIn_iff.mp he x hx⟩) ?_ (fvarsIn_iff.mpr fun _ => id) h
  intro x entry hx hentry
  have houter := hΓ.find? hentry
  exact fvarsIn_iff.mpr fun y hy =>
    ⟨.inr ⟨x, entry, hx, hentry, hy⟩, fvarsIn_iff.mp houter y hy⟩

/-- Inference is local and leaks no variable of its own. -/
theorem inferType_local (henv : env.Checked) (hfree : env.FVarFree)
    (he : e.FVarsIn FVarId.IsOuter) (hΓ : Γ.FVarsIn FVarId.IsOuter)
    (hΓ' : Γ'.FVarsIn FVarId.IsOuter) (hclosed : Γ.Closed)
    (hagree : ∀ x, e.hasFVar x → (Γ.find? x).map LocalEntry.type = (Γ'.find? x).map LocalEntry.type)
    (hs : Checker.firstFresh ≤ s) (hs' : Checker.firstFresh ≤ s')
    (hroom : s.toNat + e.openings n < 2 ^ 64) (hroom' : s'.toNat + e.openings n < 2 ^ 64) :
    (∀ T, (∃ t, (env.inferType n Γ e).Returns s T t) ↔
      ∃ t, (env.inferType n Γ' e).Returns s' T t) ∧
    ∀ T t, (env.inferType n Γ e).Returns s T t →
      (e.Scoped 0 ∧ e.FVarsIn fun x => (Γ.find? x).isSome) ∧
      T.Scoped 0 ∧ T.FVarsIn fun x => Γ.Reaches e x ∧ x.IsOuter := by
  refine ⟨fun T => ⟨?_, ?_⟩, fun T t h => ⟨⟨scoped_of_inferType h, ?_⟩, ?_, ?_⟩⟩
  · rintro ⟨t, h⟩
    exact ⟨_, returns_of_agree hfree he hΓ' hagree hs hs' hroom hroom' h⟩
  · rintro ⟨t, h⟩
    have hback := fun x hx => (hagree x hx).symm
    exact ⟨_, returns_of_agree hfree he hΓ hback hs' hs hroom' hroom h⟩
  · exact he.mp (fvarsIn_of_inferType h hs hroom)
  · exact inferType_scoped henv.closed hclosed h
  · exact fvarsIn_type_of_inferType hfree he hΓ h

/-! ### Examples -/

namespace HygieneExample

/-- `fun (p : Prop) => h p`. -/
def applied : Expr := .lam .default .prop (.app (.fvar ⟨0⟩) (.bvar 0))

/-- `h : Prop → Prop`. -/
def short : LocalContext := LocalContext.empty.push ⟨0⟩ (.simple "h") (.arrow .prop .prop)

/-- The same after and before other variables. -/
def long : LocalContext :=
  ((LocalContext.empty.push ⟨2⟩ (.simple "q") .prop).push ⟨0⟩ (.simple "f")
    (.arrow .prop .prop)).push ⟨1⟩ (.simple "h") (.fvar ⟨2⟩)

/-- `fun (p : Prop) => k p`, where `k` is a constant. -/
def constantApplied : Expr := .lam .default .prop (.app (.const (.simple "k") []) (.bvar 0))

end HygieneExample

open HygieneExample in
/-- A function has the same type in a larger context, although the variable
drawn for its binder is another one there. -/
theorem inferType_local_function :
    applied.FVarsIn FVarId.IsOuter ∧ short.FVarsIn FVarId.IsOuter ∧
    long.FVarsIn FVarId.IsOuter ∧ short.Closed ∧
    (∀ x, applied.hasFVar x →
      (short.find? x).map LocalEntry.type = (long.find? x).map LocalEntry.type) ∧
    (inferType .empty 5 short applied).Returns Checker.firstFresh
      (.pi .default .prop .prop) (Checker.firstFresh + 1) ∧
    (∃ t, (inferType .empty 5 long applied).Returns (Checker.firstFresh + 7)
      (.pi .default .prop .prop) t) ∧
    applied.FVarsIn fun x => (short.find? x).isSome := by
  have hfree : FVarFree .empty := fun c hc => absurd hc List.not_mem_nil
  have he : applied.FVarsIn FVarId.IsOuter := by decide
  have hshort : short.FVarsIn FVarId.IsOuter := by decide
  have hlong : long.FVarsIn FVarId.IsOuter := by decide
  have hclosed : short.Closed := by
    show ∀ entry ∈ short.entries, entry.type.Scoped 0
    decide
  have hagree : ∀ x, applied.hasFVar x →
      (short.find? x).map LocalEntry.type = (long.find? x).map LocalEntry.type := by
    intro x hx
    obtain rfl : ⟨0⟩ = x := by simpa [applied, prop, hasFVar] using hx
    rfl
  have hinfer : (inferType .empty 5 short applied).Returns Checker.firstFresh
      (.pi .default .prop .prop) (Checker.firstFresh + 1) := rfl
  have hlocal := inferType_local .empty hfree he hshort hlong hclosed hagree (n := 5)
    (show Checker.firstFresh ≤ Checker.firstFresh by decide)
    (show Checker.firstFresh ≤ Checker.firstFresh + 7 by decide) (by decide) (by decide)
  exact ⟨he, hshort, hlong, hclosed, hagree, hinfer, (hlocal.1 _).mp ⟨_, hinfer⟩,
    (hlocal.2 _ _ hinfer).1.2⟩

open DeclarationExample HygieneExample in
/-- A constant that was accepted with a variable of the checker in its type
gives a term one type or another, as the supply stands, and one of them
mentions that variable. -/
theorem inferType_depends_on_supply : Checked ⟨[capturing]⟩ ∧
    (constantApplied.FVarsIn fun _ => False) ∧
    (inferType ⟨[capturing]⟩ 5 .empty constantApplied).Returns Checker.firstFresh
      (.pi .default .prop (.bvar 0)) (Checker.firstFresh + 1) ∧
    (inferType ⟨[capturing]⟩ 5 .empty constantApplied).Returns (Checker.firstFresh + 1)
      (.pi .default .prop (.fvar ⟨Checker.firstFresh⟩)) (Checker.firstFresh + 2) := by
  have haccepted : declare ⟨[]⟩ 5 capturing = some (.ok ⟨[capturing]⟩) := rfl
  exact ⟨Checked.empty.declare haccepted, by decide, rfl, rfl⟩

end Environment

end Pinpoint
