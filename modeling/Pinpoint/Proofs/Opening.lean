/-
Opening and closing a binder.

`abstractFVar` closes a binder over a free variable and `instantiate` opens it.  The
two are told the same number of binders around a variable, so they undo each other
at any depth; only a shift can wrap, and it does so at the largest index alone.

* `instantiate_abstractFVar_eq_substFVar` — a closed binder is opened with a term in
  the place of the variable;
* `instantiate_lift_one` — the body of a binder that is not used is opened to itself;
* `abstractFVar_instantiate_fvar` — an opened binder is closed again;
* `opening_closing` — all of these together.
-/
import Pinpoint.Proofs.LooseVariables
import Pinpoint.Proofs.Positions

namespace Pinpoint.Expr

variable {e v : Expr}

/-- Whether every index that occurs can be raised by one. -/
def Raisable (e : Expr) : Prop := ∀ p ∈ e.bvars 0, p.2.toNat + 1 < 2 ^ 32

instance (e : Expr) : Decidable e.Raisable :=
  inferInstanceAs (Decidable (∀ p ∈ e.bvars 0, p.2.toNat + 1 < 2 ^ 32))

theorem Raisable.ne_maxIndex (h : e.Raisable) {d : Nat} {i : UInt32} (hi : (d, i) ∈ e.bvars 0) :
    i ≠ maxIndex := by
  rintro rfl
  have hlt : maxIndex.toNat + 1 < 2 ^ 32 := h _ hi
  exact absurd hlt (by decide)

/-- A binder that is closed over a variable is opened with a term in the place of the
variable. -/
theorem instantiate_abstractFVar_eq_substFVar (he : e.Raisable) (hv : v.hasLooseBVars = false)
    (x : FVarId) : (e.abstractFVar x).instantiate v = e.substFVar x v := by
  rw [instantiate_eq_mapVars, abstractFVar, substFVar, mapVars_mapVars]
  refine mapVars_congr_bvars (d := 0) (fun j i hi => ?_) (fvarsIn_of_forall (fun y k => ?_) e)
  · -- below the largest index a binder is closed like any other binder is put around
    have hmax := he.ne_maxIndex hi
    have hlt : i < maxIndex := by
      unfold maxIndex at hmax ⊢
      grind
    have hshift : (if UInt32.ofNat j ≤ i then bvar (i + 1) else bvar i) =
        .bvar (shiftedIndex (.ofNat j) i) := by
      rw [shiftedIndex]
      split <;> simp [*]
    rw [hshift]
    exact instVar_shiftedIndex hmax
  · by_cases hy : y = x
    · rw [if_pos hy, if_pos hy, mapVars, instVar, if_pos rfl, lift_eq_self hv]
    · rw [if_neg hy, if_neg hy]
      rfl

/-- A variable that is replaced by itself leaves the term as it is. -/
theorem substFVar_self (e : Expr) (x : FVarId) : e.substFVar x (.fvar x) = e := by
  refine mapVars_id (fun _ _ => rfl) (fun _ y => ?_) 0 e
  split
  · rename_i hy
    rw [hy]
  · rfl

/-- The body of a binder that is not used is opened to itself. -/
theorem instantiate_lift_one (he : e.Raisable) (w : Expr) : (e.lift 1).instantiate w = e := by
  rw [lift, liftAt_one_eq_reindex, instantiate_eq_mapVars, reindex, mapVars_mapVars]
  exact mapVars_eq_self_of_bvars (d := 0)
    (fun _ _ hi => instVar_shiftedIndex (he.ne_maxIndex hi)) (fvarsIn_of_forall (fun _ _ => rfl) e)

/-- A binder that is opened by a new variable is closed again. -/
theorem abstractFVar_instantiate_fvar {x : FVarId} (hx : e.hasFVar x = false) :
    (e.instantiate (.fvar x)).abstractFVar x = e := by
  have hfresh : e.FVarsIn (· ≠ x) := by
    rw [fvarsIn_iff]
    rintro y hy rfl
    rw [hx] at hy
    cases hy
  rw [instantiate_eq_mapVars, abstractFVar, mapVars_mapVars]
  refine mapVars_eq_self_of_bvars (d := 0) (fun j i _ => ?_) (hfresh.mono fun y hy k => ?_)
  · rw [instVar]
    split
    · rename_i hij
      rw [hij]
      exact if_pos rfl
    · split
      · rename_i hji
        have hle : UInt32.ofNat j ≤ i - 1 := by grind
        rw [mapVars, if_pos hle, UInt32.sub_add_cancel]
      · rename_i hne hji
        have hlt : ¬ UInt32.ofNat j ≤ i := by grind
        exact if_neg hlt
  · exact if_neg hy

/-- To open a binder and to close it are inverse.  What is closed over a variable is opened
with a term in the place of that variable, and so with the variable itself to what it was; a
term under a binder that it does not use is opened to itself; and what is opened by a variable
that does not occur in it is closed again. -/
theorem opening_closing (he : e.Raisable) (hv : v.hasLooseBVars = false) (x : FVarId)
    (w : Expr) :
    (e.abstractFVar x).instantiate v = e.substFVar x v ∧
      (e.abstractFVar x).instantiate (.fvar x) = e ∧
      (e.lift 1).instantiate w = e ∧
      (e.hasFVar x = false → (e.instantiate (.fvar x)).abstractFVar x = e) := by
  refine ⟨instantiate_abstractFVar_eq_substFVar he hv x, ?_, instantiate_lift_one he w,
    abstractFVar_instantiate_fvar⟩
  rw [instantiate_abstractFVar_eq_substFVar he rfl x, substFVar_self]

namespace Opened

/-- A function whose body applies a variable to its own argument and to a loose variable. -/
def body : Expr := .lam .default prop (.app (.app (.fvar ⟨7⟩) (.bvar 0)) (.bvar 3))

end Opened

open Opened in
/-- The function is closed over its variable and opened with a sort, and it is opened and
closed over a variable that it does not have. -/
theorem opening_closing_function :
    (body.abstractFVar ⟨7⟩).instantiate prop =
        .lam .default prop (.app (.app prop (.bvar 0)) (.bvar 3)) ∧
      (body.abstractFVar ⟨7⟩).instantiate (.fvar ⟨7⟩) = body ∧
      (body.lift 1).instantiate (.bvar 2) = body ∧
      (body.instantiate (.fvar ⟨8⟩)).abstractFVar ⟨8⟩ = body := by
  have hraise : body.Raisable := by decide
  obtain ⟨hopen, hback, hunused, -⟩ := opening_closing hraise (v := prop) rfl ⟨7⟩ (.bvar 2)
  obtain ⟨-, -, -, hclose⟩ := opening_closing hraise (v := prop) rfl ⟨8⟩ (.bvar 2)
  exact ⟨hopen, hback, hunused, hclose (by decide)⟩

end Pinpoint.Expr
