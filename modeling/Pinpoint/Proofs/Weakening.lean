/-
Inference and the context of a term.

Inference looks a context up at the free variables of a term and nowhere else.
So a term that has a type has no other free variables than those of its
context, and it has that type in all contexts that agree at them.

* `fvarsIn_of_inferType` — the free variables are those of the context;
* `inferType_congr_types`, `inferType_congr` — contexts that agree give the same
  types.
-/
import Pinpoint.Proofs.Soundness

namespace Pinpoint

namespace Expr

variable {p q : FVarId → Prop} {f : UInt32 → UInt32 → Expr} {e v : Expr}

theorem FVarsIn.mp (h : e.FVarsIn p) (hpq : e.FVarsIn fun x => p x → q x) : e.FVarsIn q := by
  induction e with
  | fvar x => exact hpq h
  | app _ _ ihf iha => exact ⟨ihf h.1 hpq.1, iha h.2 hpq.2⟩
  | lam _ _ _ iht ihb | pi _ _ _ iht ihb => exact ⟨iht h.1 hpq.1, ihb h.2 hpq.2⟩
  | letE _ _ _ iht ihv ihb => exact ⟨iht h.1 hpq.1, ihv h.2.1 hpq.2.1, ihb h.2.2 hpq.2.2⟩
  | mdata _ _ ih => exact ih h hpq
  | _ => trivial

/-- A free variable that a traversal turns into a term has to be found
there. -/
theorem FVarsIn.of_mapVars {g : UInt32 → FVarId → Expr}
    (hg : ∀ d x, (g d x).FVarsIn q → p x) (d : UInt32) (h : (Expr.mapVars f g d e).FVarsIn q) :
    e.FVarsIn p := by
  induction e generalizing d with
  | fvar x => exact hg d x h
  | app _ _ ihf iha => exact ⟨ihf d h.1, iha d h.2⟩
  | lam _ _ _ iht ihb | pi _ _ _ iht ihb => exact ⟨iht d h.1, ihb (d + 1) h.2⟩
  | letE _ _ _ iht ihv ihb => exact ⟨iht d h.1, ihv d h.2.1, ihb (d + 1) h.2.2⟩
  | mdata _ _ ih => exact ih d h
  | _ => trivial

theorem FVarsIn.of_instantiate (h : (e.instantiate v).FVarsIn p) : e.FVarsIn p :=
  FVarsIn.of_mapVars (g := fun _ x => .fvar x) (fun _ _ hx => hx) 0 h

end Expr

namespace Environment

open Pinpoint.Expr

variable {env : Environment} {Γ Γ' : LocalContext} {e T type : Expr} {n : Nat} {s t : UInt64}
  {p : FVarId → Prop}

/-- The free variables of a term that has a type are those of the context, but
for the checker's own. -/
theorem fvarsIn_of_inferType (h : (env.inferType n Γ e).Returns s T t)
    (hs : Checker.firstFresh ≤ s) (hroom : s.toNat + e.openings n < 2 ^ 64) :
    e.FVarsIn fun x => x.IsOuter → (Γ.find? x).isSome := by
  induction n generalizing Γ e T s t with
  | zero => exact absurd h not_inferType_zero_returns
  | succ n ih =>
    -- The body is opened with a variable of the checker, which is none of the others.
    have hopen : ∀ {t s' : UInt64} {dom body B : Expr},
        (env.inferType n (Γ.push ⟨t⟩ (.simple "x") dom) (body.instantiate (.fvar ⟨t⟩))).Returns
          (t + 1) B s' → Checker.firstFresh ≤ t →
        t.toNat + 1 + (body.instantiate (.fvar ⟨0⟩)).openings n < 2 ^ 64 →
        body.FVarsIn fun x => x.IsOuter → (Γ.find? x).isSome := by
      intro t s' dom body B hB ht hroom
      have ht1 : (t + 1).toNat = t.toNat + 1 := Supply.toNat_add_one (by omega)
      have hle : Checker.firstFresh ≤ t + 1 := by
        rw [UInt64.le_iff_toNat_le] at ht ⊢
        omega
      rw [← openings_instantiate_fvar n body ⟨t⟩] at hroom
      refine (ih hB hle (by omega)).of_instantiate.mono fun x hx houter => ?_
      have hne : (⟨t⟩ : FVarId) ≠ x := by
        rintro rfl
        exact absurd houter (by rw [FVarId.IsOuter, UInt64.not_lt]; exact ht)
      have hfind := hx houter
      rwa [LocalContext.find?_push, if_neg hne] at hfind
    cases e with
    | fvar x =>
      obtain ⟨⟨entry, hentry, -⟩, -⟩ := inferType_fvar_returns_iff.mp h
      intro _
      rw [hentry]
      rfl
    | mdata m e => exact ih (e := e) (inferType_mdata_returns_iff.mp h) hs hroom
    | app f a =>
      obtain ⟨F, A, info, dom, body, t, hF, -, hA, -, -⟩ := inferType_app_returns_iff.mp h
      rw [openings] at hroom
      have ht := toNat_supply hF (by omega)
      have hle := firstFresh_le_supply hF hs (by omega)
      exact ⟨ih hF hs (by omega), ih hA hle (by omega)⟩
    | lam info dom body =>
      obtain ⟨D, l, B, t, hD, -, hB, -⟩ := inferType_lam_returns_iff.mp h
      rw [openings] at hroom
      have ht := toNat_supply hD (by omega)
      have hle := firstFresh_le_supply hD hs (by omega)
      exact ⟨ih hD hs (by omega), hopen hB hle (by omega)⟩
    | pi info dom body =>
      obtain ⟨D, l₁, B, l₂, t, hD, -, hB, -, -⟩ := inferType_pi_returns_iff.mp h
      rw [openings] at hroom
      have ht := toNat_supply hD (by omega)
      have hle := firstFresh_le_supply hD hs (by omega)
      exact ⟨ih hD hs (by omega), hopen hB hle (by omega)⟩
    | letE type value body =>
      obtain ⟨D, l, A, t, t', hD, -, hA, -, hB⟩ := inferType_letE_returns_iff.mp h
      rw [openings] at hroom
      have ht := toNat_supply hD (by omega)
      have hle := firstFresh_le_supply hD hs (by omega)
      have ht' := toNat_supply hA (by omega)
      have hle' := firstFresh_le_supply hA hle (by omega)
      exact ⟨ih hD hs (by omega), ih hA hle (by omega), (ih hB hle' (by omega)).of_instantiate⟩
    | _ => trivial

/-- Contexts that give the free variables of a term the same types give it the
same type. -/
theorem inferType_congr_types
    (hΓ : ∀ x, p x → (Γ.find? x).map LocalEntry.type = (Γ'.find? x).map LocalEntry.type)
    (he : e.FVarsIn p) : env.inferType n Γ e = env.inferType n Γ' e := by
  induction n generalizing Γ Γ' e p with
  | zero => rfl
  | succ n ih =>
    -- Under a binder the contexts agree on the new variable as well.
    have hopen : ∀ {dom body : Expr} (x : FVarId), body.FVarsIn p →
        env.inferType n (Γ.push x (.simple "x") dom) (body.instantiate (.fvar x)) =
          env.inferType n (Γ'.push x (.simple "x") dom) (body.instantiate (.fvar x)) := by
      intro dom body x hbody
      refine ih (p := fun y => x = y ∨ p y) (fun y hy => ?_) ?_
      · rw [LocalContext.find?_push, LocalContext.find?_push]
        by_cases hxy : x = y
        · rw [if_pos hxy, if_pos hxy]
        · rw [if_neg hxy, if_neg hxy]
          exact hΓ y (hy.resolve_left hxy)
      · exact (hbody.mono fun _ => .inr).instantiate (.inl rfl)
    cases e with
    | fvar x =>
      have hx := hΓ x he
      rw [inferType, inferType]
      cases h : Γ.find? x <;> cases h' : Γ'.find? x <;> simp_all
    | mdata m e => exact ih (e := e) hΓ he
    | app f a => rw [inferType, inferType, ih hΓ he.1, ih hΓ he.2]
    | lam info dom body =>
      rw [inferType, inferType, ih hΓ he.1]
      simp only [hopen _ he.2]
    | pi info dom body =>
      rw [inferType, inferType, ih hΓ he.1]
      simp only [hopen _ he.2]
    | letE type value body =>
      rw [inferType, inferType, ih hΓ he.1, ih hΓ he.2.1, ih hΓ (he.2.2.instantiate he.2.1)]
    | lit v => cases v <;> rfl
    | _ => rfl

theorem inferType_congr (hΓ : ∀ x, p x → Γ.find? x = Γ'.find? x) (he : e.FVarsIn p) :
    env.inferType n Γ e = env.inferType n Γ' e :=
  inferType_congr_types (fun x hx => congrArg _ (hΓ x hx)) he

end Environment

end Pinpoint
