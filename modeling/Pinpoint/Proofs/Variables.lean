/-
Bound variables of a term.

`Expr.allBVars p d e` asks `p` of every bound variable of `e`, told how many
binders stand between the root and the variable; `Expr.closedUnder d e` is the
case in which each variable has its binder inside `e` or among the `d` binders
around it.

* `mapVars_mapVars` — two traversals in a row are one;
* `mapVars_eq_self` — a traversal that keeps each variable keeps the term;
* `hasLooseBVarInRange_maxIndex` — what the search for loose variables asks:
  the largest index never counts as loose;
* `liftAt_eq_self` — a term without loose variables is not changed by lifting.
-/
import Mathlib.Algebra.Group.Nat.Defs
import Pinpoint.Expr.Position

namespace Pinpoint.Expr

/-- The number of a place, or of the binders around it, does not wrap as long as there
is room for one more. -/
theorem toNat_index_succ {d : UInt32} (h : d.toNat + 1 < 2 ^ 32) : (d + 1).toNat = d.toNat + 1 := by
  rw [UInt32.toNat_add]
  exact Nat.mod_eq_of_lt (by simpa using h)

/-- Whether all bound variables of a term are as asked.  The question is told
the number of binders between the root and the variable, counted from the
given start. -/
def allBVars (p : UInt32 → UInt32 → Bool) : UInt32 → Expr → Bool
  | d, .bvar i => p d i
  | d, .app f a => allBVars p d f && allBVars p d a
  | d, .lam _ t b => allBVars p d t && allBVars p (d + 1) b
  | d, .pi _ t b => allBVars p d t && allBVars p (d + 1) b
  | d, .letE t v b => allBVars p d t && allBVars p d v && allBVars p (d + 1) b
  | d, .mdata _ e => allBVars p d e
  | _, _ => true

/-- Whether every bound variable has its binder inside the term or among the
`d` binders around it. -/
def closedUnder (d : UInt32) (e : Expr) : Bool := allBVars (fun d i => i < d) d e

theorem allBVars_mono {p q : UInt32 → UInt32 → Bool} (h : ∀ d i, p d i → q d i) {d : UInt32}
    {e : Expr} (he : e.allBVars p d) : e.allBVars q d := by
  induction e generalizing d with
  | bvar i => exact h d i he
  | app _ _ ihf iha =>
    rw [allBVars, Bool.and_eq_true] at he ⊢
    exact ⟨ihf he.1, iha he.2⟩
  | lam _ _ _ iht ihb | pi _ _ _ iht ihb =>
    rw [allBVars, Bool.and_eq_true] at he ⊢
    exact ⟨iht he.1, ihb he.2⟩
  | letE _ _ _ iht ihv ihb =>
    rw [allBVars, Bool.and_eq_true, Bool.and_eq_true] at he ⊢
    exact ⟨⟨iht he.1.1, ihv he.1.2⟩, ihb he.2⟩
  | mdata _ _ ih => exact ih he
  | _ => rfl

theorem allBVars_of_forall {p : UInt32 → UInt32 → Bool} (h : ∀ d i, p d i) (d : UInt32)
    (e : Expr) : e.allBVars p d := by
  induction e generalizing d with
  | bvar i => exact h d i
  | app _ _ ihf iha => rw [allBVars, ihf, iha, Bool.and_self]
  | lam _ _ _ iht ihb | pi _ _ _ iht ihb => rw [allBVars, iht, ihb, Bool.and_self]
  | letE _ _ _ iht ihv ihb => rw [allBVars, iht, ihv, ihb, Bool.and_self, Bool.and_self]
  | mdata _ _ ih => exact ih d
  | _ => rfl

section
variable {f : UInt32 → UInt32 → Expr} {g : UInt32 → FVarId → Expr}

/-- Two traversals in a row are one, which applies the second to what the
first puts at a variable. -/
theorem mapVars_mapVars (f f' : UInt32 → UInt32 → Expr) (g g' : UInt32 → FVarId → Expr)
    (d : UInt32) (e : Expr) :
    mapVars f' g' d (mapVars f g d e) =
      mapVars (fun d i => mapVars f' g' d (f d i)) (fun d x => mapVars f' g' d (g d x)) d e := by
  induction e generalizing d with
  | app _ _ ihf iha => simp only [mapVars, ihf, iha]
  | lam _ _ _ iht ihb | pi _ _ _ iht ihb => simp only [mapVars, iht, ihb]
  | letE _ _ _ iht ihv ihb => simp only [mapVars, iht, ihv, ihb]
  | mdata _ _ ih => simp only [mapVars, ih]
  | _ => rfl

/-- A traversal may count from another start. -/
theorem mapVars_add (f : UInt32 → UInt32 → Expr) (g : UInt32 → FVarId → Expr) (k d : UInt32)
    (e : Expr) :
    mapVars f g (d + k) e = mapVars (fun d => f (d + k)) (fun d => g (d + k)) d e := by
  have hsucc : ∀ d : UInt32, d + k + 1 = d + 1 + k := by
    intro d
    rw [UInt32.add_assoc, UInt32.add_comm k, UInt32.add_assoc]
  induction e generalizing d with
  | app _ _ ihf iha => rw [mapVars, mapVars, ihf, iha]
  | lam _ _ _ iht ihb | pi _ _ _ iht ihb => rw [mapVars, mapVars, iht, hsucc, ihb]
  | letE _ _ _ iht ihv ihb => rw [mapVars, mapVars, iht, ihv, hsucc, ihb]
  | mdata _ _ ih => rw [mapVars, mapVars, ih]
  | _ => rfl

/-- A traversal that keeps each variable keeps the term. -/
theorem mapVars_eq_self {p : UInt32 → UInt32 → Bool} {d : UInt32} {e : Expr}
    (hf : ∀ d i, p d i → f d i = .bvar i) (hg : ∀ d x, g d x = .fvar x) (h : e.allBVars p d) :
    mapVars f g d e = e := by
  induction e generalizing d with
  | bvar i => exact hf d i h
  | fvar x => exact hg d x
  | app _ _ ihf iha =>
    rw [allBVars, Bool.and_eq_true] at h
    rw [mapVars, ihf h.1, iha h.2]
  | lam _ _ _ iht ihb | pi _ _ _ iht ihb =>
    rw [allBVars, Bool.and_eq_true] at h
    rw [mapVars, iht h.1, ihb h.2]
  | letE _ _ _ iht ihv ihb =>
    rw [allBVars, Bool.and_eq_true, Bool.and_eq_true] at h
    rw [mapVars, iht h.1.1, ihv h.1.2, ihb h.2]
  | mdata _ _ ih => rw [mapVars, ih h]
  | _ => rfl

theorem mapVars_id (hf : ∀ d i, f d i = .bvar i) (hg : ∀ d x, g d x = .fvar x) (d : UInt32)
    (e : Expr) : mapVars f g d e = e :=
  mapVars_eq_self (fun d i _ => hf d i) hg
    (allBVars_of_forall (p := fun _ _ => true) (fun _ _ => rfl) d e)

end

/-! ### Loose variables -/

/-- The largest index never counts as loose, because the range that is
searched is half open and its end stops at the largest word. -/
theorem hasLooseBVarInRange_maxIndex (d : UInt32) (e : Expr) :
    e.hasLooseBVarInRange d maxIndex = !e.allBVars (fun d i => i < d || i = maxIndex) d := by
  induction e generalizing d with
  | bvar i =>
    simp only [hasLooseBVarInRange, allBVars, maxIndex]
    grind
  | app _ _ ihf iha => simp [hasLooseBVarInRange, allBVars, ihf, iha]
  | lam _ _ _ iht ihb | pi _ _ _ iht ihb =>
    simp [hasLooseBVarInRange, allBVars, saturatingSucc, iht, ihb]
  | letE _ _ _ iht ihv ihb =>
    simp [hasLooseBVarInRange, allBVars, saturatingSucc, iht, ihv, ihb, Bool.or_assoc]
  | mdata _ _ ih => simpa [hasLooseBVarInRange, allBVars] using ih d
  | _ => rfl

theorem hasLooseBVars_eq_false_iff {e : Expr} :
    e.hasLooseBVars = false ↔ e.allBVars (fun d i => i < d || i = maxIndex) 0 := by
  rw [hasLooseBVars, hasLooseBVarInRange_maxIndex, Bool.not_eq_false']

/-- A closed term has no loose variable. -/
theorem hasLooseBVars_of_closedUnder {e : Expr} (h : e.closedUnder 0) :
    e.hasLooseBVars = false := by
  refine hasLooseBVars_eq_false_iff.mpr (allBVars_mono (fun d i hi => ?_) h)
  rw [Bool.or_eq_true]
  exact .inl hi

/-- A term without loose variables is not changed by lifting. -/
theorem liftAt_eq_self {d amount : UInt32} {e : Expr}
    (h : e.hasLooseBVarInRange d maxIndex = false) : e.liftAt d amount = e := by
  rw [hasLooseBVarInRange_maxIndex, Bool.not_eq_false'] at h
  refine mapVars_eq_self (fun d i hi => if_neg ?_) (fun _ _ => rfl) h
  grind

theorem lift_eq_self {amount : UInt32} {e : Expr} (h : e.hasLooseBVars = false) :
    e.lift amount = e :=
  liftAt_eq_self h

/-- A closed term is not changed by instantiation. -/
theorem instantiate_eq_self {e : Expr} (h : e.closedUnder 0) (v : Expr) : e.instantiate v = e := by
  refine mapVars_eq_self (fun d i hi => ?_) (fun _ _ => rfl) h
  have hi : i < d := of_decide_eq_true hi
  rw [if_neg (by grind), if_neg (by grind)]

@[simp] theorem lift_zero (e : Expr) : e.lift 0 = e := by
  refine mapVars_id (fun d i => ?_) (fun _ _ => rfl) 0 e
  rw [UInt32.add_zero, ite_self]

end Pinpoint.Expr
