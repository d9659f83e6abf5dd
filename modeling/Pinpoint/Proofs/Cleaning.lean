/-
Terms with their metadata dropped.

A cleaning drops the metadata of a term and changes nothing else but the
annotations of binders and the universes of sorts.  `skeleton` and `eraseMData`
are cleanings, so what is shown here of all of them holds of both.

* `Cleaning.clean_mapVars` — traversals and cleanings can be exchanged, so
  operations on terms with one clean form lead to terms with one clean form;
* `Cleaning.of_app` and its like — under its metadata, a term with the clean form
  of an application is an application, and so on.
-/
import Pinpoint.Proofs.Skeleton

namespace Pinpoint

/-- What becomes of annotations of binders and of the universes of sorts when
the metadata of a term is dropped. -/
structure Cleaning where
  onInfo : BinderInfo → BinderInfo
  onLevel : Level → Level

namespace Cleaning

open Pinpoint.Expr

/-- The term without its metadata. -/
def clean (c : Cleaning) : Expr → Expr
  | .sort l => .sort (c.onLevel l)
  | .app f a => .app (c.clean f) (c.clean a)
  | .lam i t b => .lam (c.onInfo i) (c.clean t) (c.clean b)
  | .pi i t b => .pi (c.onInfo i) (c.clean t) (c.clean b)
  | .letE t v b => .letE (c.clean t) (c.clean v) (c.clean b)
  | .mdata _ e => c.clean e
  | e => e

/-- The cleaning that leaves the skeleton. -/
def toSkeleton : Cleaning := ⟨fun _ => .default, Level.simplify⟩

/-- The cleaning that drops metadata only. -/
def dropMData : Cleaning := ⟨id, id⟩

theorem toSkeleton_clean (e : Expr) : toSkeleton.clean e = e.skeleton := by
  induction e with
  | app _ _ ihf iha => rw [clean, skeleton, ihf, iha]
  | lam _ _ _ iht ihb | pi _ _ _ iht ihb => rw [clean, skeleton, iht, ihb]; rfl
  | letE _ _ _ iht ihv ihb => rw [clean, skeleton, iht, ihv, ihb]
  | mdata _ _ ih => exact ih
  | _ => rfl

theorem dropMData_clean (e : Expr) : dropMData.clean e = e.eraseMData := by
  induction e with
  | app _ _ ihf iha => rw [clean, eraseMData, ihf, iha]
  | lam _ _ _ iht ihb | pi _ _ _ iht ihb => rw [clean, eraseMData, iht, ihb]; rfl
  | letE _ _ _ iht ihv ihb => rw [clean, eraseMData, iht, ihv, ihb]
  | mdata _ _ ih => exact ih
  | _ => rfl

variable {c : Cleaning}

@[simp] theorem clean_stripMData (e : Expr) : c.clean e.stripMData = c.clean e := by
  induction e with
  | mdata _ _ ih => exact ih
  | _ => rfl

/-! ### Operations -/

theorem clean_mapVars (f : UInt32 → UInt32 → Expr) (g : UInt32 → FVarId → Expr) (d : UInt32)
    (e : Expr) : c.clean (mapVars f g d e) =
      mapVars (fun d i => c.clean (f d i)) (fun d x => c.clean (g d x)) d (c.clean e) := by
  induction e generalizing d with
  | app _ _ ihf iha => simp only [mapVars, clean, ihf, iha]
  | lam _ _ _ iht ihb | pi _ _ _ iht ihb => simp only [mapVars, clean, iht, ihb]
  | letE _ _ _ iht ihv ihb => simp only [mapVars, clean, iht, ihv, ihb]
  | mdata _ _ ih => exact ih d
  | _ => rfl

theorem clean_mapVars_congr {f f' : UInt32 → UInt32 → Expr} {g g' : UInt32 → FVarId → Expr}
    (hf : ∀ d i, c.clean (f d i) = c.clean (f' d i))
    (hg : ∀ d x, c.clean (g d x) = c.clean (g' d x)) (d : UInt32) {e e' : Expr}
    (h : c.clean e = c.clean e') :
    c.clean (mapVars f g d e) = c.clean (mapVars f' g' d e') := by
  rw [clean_mapVars, clean_mapVars, h, funext fun d => funext (hf d), funext fun d => funext (hg d)]

theorem clean_lift_congr {e e' : Expr} (h : c.clean e = c.clean e') (amount : UInt32) :
    c.clean (e.lift amount) = c.clean (e'.lift amount) :=
  clean_mapVars_congr (fun _ _ => rfl) (fun _ _ => rfl) 0 h

theorem clean_instantiate_congr {b b' v v' : Expr} (hb : c.clean b = c.clean b')
    (hv : c.clean v = c.clean v') : c.clean (b.instantiate v) = c.clean (b'.instantiate v') := by
  refine clean_mapVars_congr (fun d i => ?_) (fun _ _ => rfl) 0 hb
  by_cases hid : i = d
  · simp only [if_pos hid]
    exact clean_lift_congr hv d
  · simp only [if_neg hid]

theorem clean_abstractFVar_congr {e e' : Expr} (h : c.clean e = c.clean e') (x : FVarId) :
    c.clean (e.abstractFVar x) = c.clean (e'.abstractFVar x) :=
  clean_mapVars_congr (fun _ _ => rfl) (fun _ _ => rfl) 0 h

theorem clean_instantiateRev_congr (e : Expr) {vals vals' : List Expr}
    (h : vals.map c.clean = vals'.map c.clean) :
    c.clean (e.instantiateRev vals) = c.clean (e.instantiateRev vals') := by
  have hlen : vals.length = vals'.length := by simpa using congrArg List.length h
  have hget : ∀ k : Nat, (vals.reverse[k]?).map c.clean = (vals'.reverse[k]?).map c.clean := by
    intro k
    rw [← List.getElem?_map, ← List.getElem?_map, List.map_reverse, List.map_reverse, h]
  refine clean_mapVars_congr (fun d i => ?_) (fun _ _ => rfl) 0 rfl
  split
  · rfl
  · have hvalue := hget (i - d).toNat
    cases hv : vals.reverse[(i - d).toNat]? <;> cases hv' : vals'.reverse[(i - d).toNat]? <;>
      rw [hv, hv'] at hvalue
    · rw [hlen]
    · cases hvalue
    · cases hvalue
    · exact clean_lift_congr (Option.some.inj hvalue) d

/-! ### Shapes -/

section
variable {e f a t v b d : Expr} {i : BinderInfo} {l : Level} {n : Name} {ls : List Level}

/-- Under its metadata, a term with the clean form of an application is one. -/
theorem of_app (h : c.clean (.app f a) = c.clean e) :
    ∃ f' a', e.stripMData = .app f' a' ∧ c.clean f = c.clean f' ∧ c.clean a = c.clean a' := by
  rw [← clean_stripMData e] at h
  cases hs : e.stripMData with
  | app f' a' =>
    rw [hs] at h
    exact ⟨f', a', rfl, Expr.app.inj h⟩
  | mdata m e' => exact absurd hs (stripMData_ne_mdata e m e')
  | _ => rw [hs] at h; cases h

theorem of_lam (h : c.clean (.lam i d b) = c.clean e) :
    ∃ i' d' b', e.stripMData = .lam i' d' b' ∧ c.onInfo i = c.onInfo i' ∧
      c.clean d = c.clean d' ∧ c.clean b = c.clean b' := by
  rw [← clean_stripMData e] at h
  cases hs : e.stripMData with
  | lam i' d' b' =>
    rw [hs] at h
    exact ⟨i', d', b', rfl, Expr.lam.inj h⟩
  | mdata m e' => exact absurd hs (stripMData_ne_mdata e m e')
  | _ => rw [hs] at h; cases h

theorem of_pi (h : c.clean (.pi i d b) = c.clean e) :
    ∃ i' d' b', e.stripMData = .pi i' d' b' ∧ c.onInfo i = c.onInfo i' ∧
      c.clean d = c.clean d' ∧ c.clean b = c.clean b' := by
  rw [← clean_stripMData e] at h
  cases hs : e.stripMData with
  | pi i' d' b' =>
    rw [hs] at h
    exact ⟨i', d', b', rfl, Expr.pi.inj h⟩
  | mdata m e' => exact absurd hs (stripMData_ne_mdata e m e')
  | _ => rw [hs] at h; cases h

theorem of_letE (h : c.clean (.letE t v b) = c.clean e) :
    ∃ t' v' b', e.stripMData = .letE t' v' b' ∧ c.clean t = c.clean t' ∧
      c.clean v = c.clean v' ∧ c.clean b = c.clean b' := by
  rw [← clean_stripMData e] at h
  cases hs : e.stripMData with
  | letE t' v' b' =>
    rw [hs] at h
    exact ⟨t', v', b', rfl, Expr.letE.inj h⟩
  | mdata m e' => exact absurd hs (stripMData_ne_mdata e m e')
  | _ => rw [hs] at h; cases h

theorem of_sort (h : c.clean (.sort l) = c.clean e) :
    ∃ l', e.stripMData = .sort l' ∧ c.onLevel l = c.onLevel l' := by
  rw [← clean_stripMData e] at h
  cases hs : e.stripMData with
  | sort l' =>
    rw [hs] at h
    exact ⟨l', rfl, Expr.sort.inj h⟩
  | mdata m e' => exact absurd hs (stripMData_ne_mdata e m e')
  | _ => rw [hs] at h; cases h

/-- Whether a term is the same whatever is cleaned of it, and has no parts. -/
def IsLeaf : Expr → Prop
  | .bvar _ => True
  | .fvar _ => True
  | .const .. => True
  | .lit _ => True
  | _ => False

/-- What a cleaning does not touch is there under the metadata. -/
theorem of_leaf (h : c.clean a = c.clean e) (ha : IsLeaf a) : e.stripMData = a := by
  rw [← clean_stripMData e] at h
  cases hs : e.stripMData with
  | mdata m e' => exact absurd hs (stripMData_ne_mdata e m e')
  | _ => rw [hs] at h; cases a <;> first | exact absurd ha id | exact h.symm | cases h

end

end Cleaning

end Pinpoint
