/-
What the two comparisons of terms look at.

`eqModMData` compares skeletons: terms without metadata and binder
annotations, with the universes of `Sort` simplified.  A match promises
less, for it simplifies the universe arguments of constants too; what it
compares is the canonical form.

* `eqModMData_iff` — `eqModMData` is equality of skeletons;
* `skeleton_eq_iff_constLevels_eq` — terms of one canonical form have one
  skeleton exactly if they spell the universe arguments of their constants
  alike.
-/
import Pinpoint.Expr.Metadata
import Pinpoint.Proofs.Variables

namespace Pinpoint.Expr

/-- The term without metadata and binder annotations, and with its universes
simplified. -/
def skeleton : Expr → Expr
  | .sort l => .sort l.simplify
  | .app f a => .app f.skeleton a.skeleton
  | .lam _ t b => .lam .default t.skeleton b.skeleton
  | .pi _ t b => .pi .default t.skeleton b.skeleton
  | .letE t v b => .letE t.skeleton v.skeleton b.skeleton
  | .mdata _ e => e.skeleton
  | e => e

/-- The term with the universe arguments of its constants simplified. -/
def simplifyConsts : Expr → Expr
  | .const n ls => .const n (ls.map Level.simplify)
  | .app f a => .app f.simplifyConsts a.simplifyConsts
  | .lam i t b => .lam i t.simplifyConsts b.simplifyConsts
  | .pi i t b => .pi i t.simplifyConsts b.simplifyConsts
  | .letE t v b => .letE t.simplifyConsts v.simplifyConsts b.simplifyConsts
  | .mdata m e => .mdata m e.simplifyConsts
  | e => e

/-- The skeleton with the universe arguments of constants simplified. -/
def canonical (e : Expr) : Expr := e.skeleton.simplifyConsts

/-- The universe arguments of all constants, in the order of the positions. -/
def constLevels : Expr → List (List Level)
  | .const _ ls => [ls]
  | .app f a => f.constLevels ++ a.constLevels
  | .lam _ t b => t.constLevels ++ b.constLevels
  | .pi _ t b => t.constLevels ++ b.constLevels
  | .letE t v b => t.constLevels ++ (v.constLevels ++ b.constLevels)
  | .mdata _ e => e.constLevels
  | _ => []

/-! ### Skeletons -/

@[simp] theorem skeleton_bvar (i : UInt32) : (bvar i).skeleton = bvar i := rfl

@[simp] theorem skeleton_stripMData (e : Expr) : e.stripMData.skeleton = e.skeleton := by
  induction e with
  | mdata _ _ ih => simpa [stripMData, skeleton] using ih
  | _ => rfl

@[simp] theorem skeleton_eraseMData (e : Expr) : e.eraseMData.skeleton = e.skeleton := by
  induction e with
  | app _ _ ihf iha => simp [eraseMData, skeleton, ihf, iha]
  | lam _ _ _ iht ihb => simp [eraseMData, skeleton, iht, ihb]
  | pi _ _ _ iht ihb => simp [eraseMData, skeleton, iht, ihb]
  | letE _ _ _ iht ihv ihb => simp [eraseMData, skeleton, iht, ihv, ihb]
  | mdata _ _ ih => simpa [eraseMData, skeleton] using ih
  | _ => rfl

theorem skeleton_eq_of_eraseMData_eq {e e' : Expr} (h : e.eraseMData = e'.eraseMData) :
    e.skeleton = e'.skeleton := by
  rw [← skeleton_eraseMData e, h, skeleton_eraseMData]

theorem stripMData_eraseMData (e : Expr) : e.eraseMData.stripMData = e.eraseMData := by
  induction e with
  | mdata _ _ ih => exact ih
  | _ => rfl

theorem stripMData_ne_mdata (e : Expr) (m : List (Name × MDataValue)) (e' : Expr) :
    e.stripMData ≠ .mdata m e' := by
  induction e with
  | mdata _ _ ih => simpa [stripMData] using ih
  | _ => simp [stripMData]

/-- Two terms are the same up to metadata if they have the same skeleton. -/
theorem eqModMData_iff (a b : Expr) : eqModMData a b = true ↔ a.skeleton = b.skeleton := by
  induction a generalizing b with
  | mdata m e ih => simpa [eqModMData, skeleton] using ih b
  | _ =>
    -- under its metadata `b` has a constructor of its own, which has to be that of `a`
    rw [← skeleton_stripMData b]
    simp only [eqModMData]
    have hb := stripMData_ne_mdata b
    generalize b.stripMData = b' at hb
    cases b' <;> simp_all [skeleton, and_assoc]

theorem constLevels_skeleton (e : Expr) : e.skeleton.constLevels = e.constLevels := by
  induction e with
  | app _ _ ihf iha => rw [skeleton, constLevels, constLevels, ihf, iha]
  | lam _ _ _ iht ihb | pi _ _ _ iht ihb => rw [skeleton, constLevels, constLevels, iht, ihb]
  | letE _ _ _ iht ihv ihb => rw [skeleton, constLevels, constLevels, iht, ihv, ihb]
  | mdata _ _ ih => exact ih
  | _ => rfl

theorem allBVars_skeleton (p : UInt32 → UInt32 → Bool) (d : UInt32) (e : Expr) :
    e.skeleton.allBVars p d = e.allBVars p d := by
  induction e generalizing d with
  | app _ _ ihf iha => rw [skeleton, allBVars, allBVars, ihf, iha]
  | lam _ _ _ iht ihb | pi _ _ _ iht ihb => rw [skeleton, allBVars, allBVars, iht, ihb]
  | letE _ _ _ iht ihv ihb => rw [skeleton, allBVars, allBVars, iht, ihv, ihb]
  | mdata _ _ ih => exact ih d
  | _ => rfl

/-- A traversal that keeps the skeletons of the variables keeps that of the
term, and no other does. -/
theorem skeleton_mapVars_eq_iff {p : UInt32 → UInt32 → Bool} {f : UInt32 → UInt32 → Expr}
    (hf : ∀ d i, (f d i).skeleton = .bvar i ↔ p d i) (d : UInt32) (e : Expr) :
    (mapVars f (fun _ x => .fvar x) d e).skeleton = e.skeleton ↔ e.allBVars p d := by
  induction e generalizing d with
  | bvar i => exact hf d i
  | app _ _ ihf iha => simp [mapVars, skeleton, allBVars, ihf, iha]
  | lam _ _ _ iht ihb | pi _ _ _ iht ihb => simp [mapVars, skeleton, allBVars, iht, ihb]
  | letE _ _ _ iht ihv ihb => simp [mapVars, skeleton, allBVars, iht, ihv, ihb, and_assoc]
  | mdata _ _ ih => simpa [mapVars, skeleton, allBVars] using ih d
  | _ => simp [mapVars, skeleton, allBVars]

/-! ### Canonical forms -/

theorem canonical_eq_of_skeleton_eq {a b : Expr} (h : a.skeleton = b.skeleton) :
    a.canonical = b.canonical := by
  rw [canonical, h, canonical]

section
variable (i : BinderInfo) (f a t v b : Expr) (l : Level) (n : Name) (ls : List Level)

theorem canonical_app : (app f a).canonical = .app f.canonical a.canonical := rfl

theorem canonical_lam : (lam i t b).canonical = .lam .default t.canonical b.canonical := rfl

theorem canonical_pi : (pi i t b).canonical = .pi .default t.canonical b.canonical := rfl

theorem canonical_letE : (letE t v b).canonical = .letE t.canonical v.canonical b.canonical := rfl

theorem canonical_sort : (sort l).canonical = .sort l.simplify := rfl

theorem canonical_const : (const n ls).canonical = .const n (ls.map Level.simplify) := rfl

end

@[simp] theorem canonical_stripMData (e : Expr) : e.stripMData.canonical = e.canonical :=
  canonical_eq_of_skeleton_eq (skeleton_stripMData e)

theorem length_constLevels_of_simplifyConsts_eq {a b : Expr}
    (h : a.simplifyConsts = b.simplifyConsts) : a.constLevels.length = b.constLevels.length := by
  induction a generalizing b <;> cases b <;> simp [simplifyConsts] at h <;>
    simp [constLevels] <;> grind

/-- Terms that differ in the spelling of universe arguments only are the same
if these are. -/
theorem eq_of_simplifyConsts_eq {a b : Expr} (h : a.simplifyConsts = b.simplifyConsts)
    (hl : a.constLevels = b.constLevels) : a = b := by
  induction a generalizing b with
  | const n ls =>
    cases b <;> simp only [simplifyConsts, const.injEq, reduceCtorEq] at h
    simp only [constLevels, List.cons.injEq, and_true] at hl
    rw [h.1, hl]
  | app f a ihf iha =>
    cases b <;> simp only [simplifyConsts, app.injEq, reduceCtorEq] at h
    obtain ⟨hf, ha⟩ := List.append_inj hl (length_constLevels_of_simplifyConsts_eq h.1)
    rw [ihf h.1 hf, iha h.2 ha]
  | lam i t b iht ihb =>
    cases b <;> simp only [simplifyConsts, lam.injEq, reduceCtorEq] at h
    obtain ⟨hi, ht, hb⟩ := h
    obtain ⟨hlt, hlb⟩ := List.append_inj hl (length_constLevels_of_simplifyConsts_eq ht)
    rw [hi, iht ht hlt, ihb hb hlb]
  | pi i t b iht ihb =>
    cases b <;> simp only [simplifyConsts, pi.injEq, reduceCtorEq] at h
    obtain ⟨hi, ht, hb⟩ := h
    obtain ⟨hlt, hlb⟩ := List.append_inj hl (length_constLevels_of_simplifyConsts_eq ht)
    rw [hi, iht ht hlt, ihb hb hlb]
  | letE t v b iht ihv ihb =>
    cases b <;> simp only [simplifyConsts, letE.injEq, reduceCtorEq] at h
    obtain ⟨ht, hv, hb⟩ := h
    obtain ⟨hlt, hlvb⟩ := List.append_inj hl (length_constLevels_of_simplifyConsts_eq ht)
    obtain ⟨hlv, hlb⟩ := List.append_inj hlvb (length_constLevels_of_simplifyConsts_eq hv)
    rw [iht ht hlt, ihv hv hlv, ihb hb hlb]
  | mdata m e ih =>
    cases b <;> simp only [simplifyConsts, mdata.injEq, reduceCtorEq] at h
    rw [h.1, ih h.2 hl]
  | _ => cases b <;> simp_all [simplifyConsts]

/-- Terms of the same canonical form have the same skeleton exactly if they
spell the universe arguments of their constants alike. -/
theorem skeleton_eq_iff_constLevels_eq {a b : Expr} (h : a.canonical = b.canonical) :
    a.skeleton = b.skeleton ↔ a.constLevels = b.constLevels := by
  constructor
  · intro hs
    rw [← constLevels_skeleton a, hs, constLevels_skeleton]
  · intro hl
    exact eq_of_simplifyConsts_eq h (by rwa [constLevels_skeleton, constLevels_skeleton])

theorem allBVars_simplifyConsts (p : UInt32 → UInt32 → Bool) (d : UInt32) (e : Expr) :
    e.simplifyConsts.allBVars p d = e.allBVars p d := by
  induction e generalizing d with
  | app _ _ ihf iha => rw [simplifyConsts, allBVars, allBVars, ihf, iha]
  | lam _ _ _ iht ihb | pi _ _ _ iht ihb => rw [simplifyConsts, allBVars, allBVars, iht, ihb]
  | letE _ _ _ iht ihv ihb => rw [simplifyConsts, allBVars, allBVars, iht, ihv, ihb]
  | mdata _ _ ih => exact ih d
  | _ => rfl

/-- Terms of the same canonical form have the same bound variables. -/
theorem allBVars_of_canonical_eq {a b : Expr} (h : a.canonical = b.canonical)
    (p : UInt32 → UInt32 → Bool) (d : UInt32) : a.allBVars p d = b.allBVars p d :=
  calc
    a.allBVars p d = a.canonical.allBVars p d := by
      rw [canonical, allBVars_simplifyConsts, allBVars_skeleton]
    _ = b.canonical.allBVars p d := by rw [h]
    _ = b.allBVars p d := by rw [canonical, allBVars_simplifyConsts, allBVars_skeleton]

theorem hasLooseBVars_of_canonical_eq {a b : Expr} (h : a.canonical = b.canonical) :
    a.hasLooseBVars = b.hasLooseBVars := by
  simp only [hasLooseBVars, hasLooseBVarInRange_maxIndex, allBVars_of_canonical_eq h]

end Pinpoint.Expr
