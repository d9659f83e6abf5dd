/-
Renaming the free variables of a term.

`e.rename ρ` has the variable `ρ x` in the place of `x`, and `e.FVarsIn p` says
that `p` holds of all free variables of `e`.  A renaming commutes with every
operation on terms, for those look at free variables only to abstract one of
them; so reduction and definitional equality commute with it, in environments
whose constants have no free variables.

* `rename_instantiate`, `rename_abstractFVar` — the operations commute with a
  renaming;
* `whnf_rename`, `isDefEq_rename` — so do reduction and definitional equality;
* `FVarsIn.whnf` — reduction brings in no variables but those of constants.
-/
import Mathlib.Logic.Function.Basic
import Pinpoint.Proofs.Reduction
import Pinpoint.Proofs.Variables

namespace Pinpoint

namespace Expr

/-- The term with its free variables renamed. -/
def rename (ρ : FVarId → FVarId) : Expr → Expr
  | .bvar i => .bvar i
  | .fvar x => .fvar (ρ x)
  | .sort l => .sort l
  | .const n ls => .const n ls
  | .app f a => .app (f.rename ρ) (a.rename ρ)
  | .lam i t b => .lam i (t.rename ρ) (b.rename ρ)
  | .pi i t b => .pi i (t.rename ρ) (b.rename ρ)
  | .letE t v b => .letE (t.rename ρ) (v.rename ρ) (b.rename ρ)
  | .lit v => .lit v
  | .mdata m e => .mdata m (e.rename ρ)

/-- Whether all free variables of a term are as asked. -/
def FVarsIn (p : FVarId → Prop) : Expr → Prop
  | .fvar x => p x
  | .app f a => f.FVarsIn p ∧ a.FVarsIn p
  | .lam _ t b => t.FVarsIn p ∧ b.FVarsIn p
  | .pi _ t b => t.FVarsIn p ∧ b.FVarsIn p
  | .letE t v b => t.FVarsIn p ∧ v.FVarsIn p ∧ b.FVarsIn p
  | .mdata _ e => e.FVarsIn p
  | _ => True

/-- For a question that is decided of each variable, it is decided of all. -/
instance FVarsIn.decidable (p : FVarId → Prop) [DecidablePred p] :
    ∀ e : Expr, Decidable (e.FVarsIn p)
  | .fvar x => inferInstanceAs (Decidable (p x))
  | .app f a => @instDecidableAnd _ _ (decidable p f) (decidable p a)
  | .lam _ t b => @instDecidableAnd _ _ (decidable p t) (decidable p b)
  | .pi _ t b => @instDecidableAnd _ _ (decidable p t) (decidable p b)
  | .letE _ _ _ =>
    @instDecidableAnd _ _ (decidable p _) (@instDecidableAnd _ _ (decidable p _) (decidable p _))
  | .mdata _ e => decidable p e
  | .bvar _ => .isTrue trivial
  | .sort _ => .isTrue trivial
  | .const _ _ => .isTrue trivial
  | .lit _ => .isTrue trivial

variable {p q : FVarId → Prop} {ρ : FVarId → FVarId} {e v : Expr}

/-! ### Traversals -/

section
variable {f : UInt32 → UInt32 → Expr} {g : UInt32 → FVarId → Expr}

theorem rename_mapVars (ρ : FVarId → FVarId) (d : UInt32) (e : Expr) :
    (mapVars f g d e).rename ρ =
      mapVars (fun d i => (f d i).rename ρ) (fun d x => (g d x).rename ρ) d e := by
  induction e generalizing d with
  | app _ _ ihf iha => rw [mapVars, mapVars, rename, ihf, iha]
  | lam _ _ _ iht ihb | pi _ _ _ iht ihb => rw [mapVars, mapVars, rename, iht, ihb]
  | letE _ _ _ iht ihv ihb => rw [mapVars, mapVars, rename, iht, ihv, ihb]
  | mdata _ _ ih => rw [mapVars, mapVars, rename, ih]
  | _ => rfl

theorem mapVars_rename (ρ : FVarId → FVarId) (d : UInt32) (e : Expr) :
    mapVars f g d (e.rename ρ) = mapVars f (fun d x => g d (ρ x)) d e := by
  induction e generalizing d with
  | app _ _ ihf iha => rw [rename, mapVars, mapVars, ihf, iha]
  | lam _ _ _ iht ihb | pi _ _ _ iht ihb => rw [rename, mapVars, mapVars, iht, ihb]
  | letE _ _ _ iht ihv ihb => rw [rename, mapVars, mapVars, iht, ihv, ihb]
  | mdata _ _ ih => rw [rename, mapVars, mapVars, ih]
  | _ => rfl

/-- What a traversal puts at the variables is all that it brings in. -/
theorem FVarsIn.mapVars (hf : ∀ d i, (f d i).FVarsIn q) (hg : ∀ d x, p x → (g d x).FVarsIn q)
    (h : e.FVarsIn p) (d : UInt32) : (mapVars f g d e).FVarsIn q := by
  induction e generalizing d with
  | bvar i => exact hf d i
  | fvar x => exact hg d x h
  | app _ _ ihf iha => exact ⟨ihf h.1 d, iha h.2 d⟩
  | lam _ _ _ iht ihb | pi _ _ _ iht ihb => exact ⟨iht h.1 d, ihb h.2 (d + 1)⟩
  | letE _ _ _ iht ihv ihb => exact ⟨iht h.1 d, ihv h.2.1 d, ihb h.2.2 (d + 1)⟩
  | mdata _ _ ih => exact ih h d
  | _ => trivial

end

/-! ### The free variables of a term -/

theorem FVarsIn.mono (h : e.FVarsIn p) (hpq : ∀ x, p x → q x) : e.FVarsIn q := by
  induction e with
  | fvar x => exact hpq x h
  | app _ _ ihf iha => exact ⟨ihf h.1, iha h.2⟩
  | lam _ _ _ iht ihb | pi _ _ _ iht ihb => exact ⟨iht h.1, ihb h.2⟩
  | letE _ _ _ iht ihv ihb => exact ⟨iht h.1, ihv h.2.1, ihb h.2.2⟩
  | mdata _ _ ih => exact ih h
  | _ => trivial

theorem fvarsIn_of_forall (h : ∀ x, p x) (e : Expr) : e.FVarsIn p := by
  induction e with
  | fvar x => exact h x
  | app _ _ ihf iha => exact ⟨ihf, iha⟩
  | lam _ _ _ iht ihb | pi _ _ _ iht ihb => exact ⟨iht, ihb⟩
  | letE _ _ _ iht ihv ihb => exact ⟨iht, ihv, ihb⟩
  | mdata _ _ ih => exact ih
  | _ => trivial

/-- The free variables of a term are those that occur in it. -/
theorem fvarsIn_iff : e.FVarsIn p ↔ ∀ x, e.hasFVar x → p x := by
  induction e with
  | fvar x => simp [FVarsIn, hasFVar]
  | app _ _ ihf iha => simp only [FVarsIn, hasFVar, ihf, iha]; grind
  | lam _ _ _ iht ihb | pi _ _ _ iht ihb => simp only [FVarsIn, hasFVar, iht, ihb]; grind
  | letE _ _ _ iht ihv ihb => simp only [FVarsIn, hasFVar, iht, ihv, ihb]; grind
  | mdata _ _ ih => exact ih
  | _ => simp [FVarsIn, hasFVar]

theorem FVarsIn.and (hp : e.FVarsIn p) (hq : e.FVarsIn q) : e.FVarsIn fun x => p x ∧ q x :=
  fvarsIn_iff.mpr fun x hx => ⟨fvarsIn_iff.mp hp x hx, fvarsIn_iff.mp hq x hx⟩

theorem FVarsIn.lift (h : e.FVarsIn p) (amount : UInt32) : (e.lift amount).FVarsIn p := by
  refine FVarsIn.mapVars (g := fun _ x => .fvar x) (fun d i => ?_) (fun _ _ hx => hx) h 0
  split <;> trivial

theorem FVarsIn.instantiate (h : e.FVarsIn p) (hv : v.FVarsIn p) :
    (e.instantiate v).FVarsIn p := by
  refine FVarsIn.mapVars (g := fun _ x => .fvar x) (fun d i => ?_) (fun _ _ hx => hx) h 0
  split
  · exact hv.lift d
  · split <;> trivial

theorem FVarsIn.abstractFVar {x : FVarId} (h : e.FVarsIn fun y => y = x ∨ p y) :
    (e.abstractFVar x).FVarsIn p := by
  refine FVarsIn.mapVars (fun d i => ?_) (fun d y hy => ?_) h 0
  · split <;> trivial
  · split
    · trivial
    · rename_i hne
      exact hy.resolve_left hne

theorem FVarsIn.stripMData (h : e.FVarsIn p) : e.stripMData.FVarsIn p := by
  induction e with
  | mdata m e ih => exact ih h
  | _ => exact h

theorem FVarsIn.mkApp {args : List Expr} :
    (mkApp e args).FVarsIn p ↔ e.FVarsIn p ∧ ∀ a ∈ args, a.FVarsIn p := by
  induction args generalizing e with
  | nil => simp
  | cons a args ih =>
    rw [mkApp_cons, ih]
    simp [FVarsIn, and_assoc]

theorem FVarsIn.instantiateLevels {subst : List (Name × Level)} :
    (e.instantiateLevels subst).FVarsIn p ↔ e.FVarsIn p := by
  induction e with
  | app _ _ ihf iha => exact and_congr ihf iha
  | lam _ _ _ iht ihb | pi _ _ _ iht ihb => exact and_congr iht ihb
  | letE _ _ _ iht ihv ihb => exact and_congr iht (and_congr ihv ihb)
  | mdata _ _ ih => exact ih
  | _ => rfl

/-! ### Renaming and the operations -/

theorem rename_eq_self (h : e.FVarsIn fun x => ρ x = x) : e.rename ρ = e := by
  induction e with
  | fvar x => rw [rename, show ρ x = x from h]
  | app _ _ ihf iha => rw [rename, ihf h.1, iha h.2]
  | lam _ _ _ iht ihb | pi _ _ _ iht ihb => rw [rename, iht h.1, ihb h.2]
  | letE _ _ _ iht ihv ihb => rw [rename, iht h.1, ihv h.2.1, ihb h.2.2]
  | mdata _ _ ih => rw [rename, ih h]
  | _ => rfl

theorem rename_rename (ρ ρ' : FVarId → FVarId) (e : Expr) :
    (e.rename ρ).rename ρ' = e.rename fun x => ρ' (ρ x) := by
  induction e with
  | app _ _ ihf iha => rw [rename, rename, rename, ihf, iha]
  | lam _ _ _ iht ihb | pi _ _ _ iht ihb => rw [rename, rename, rename, iht, ihb]
  | letE _ _ _ iht ihv ihb => rw [rename, rename, rename, iht, ihv, ihb]
  | mdata _ _ ih => rw [rename, rename, rename, ih]
  | _ => rfl

/-- Different names can be changed back. -/
theorem exists_rename_rename (hρ : Function.Injective ρ) :
    ∃ ρ', ∀ e : Expr, (e.rename ρ).rename ρ' = e := by
  have : Nonempty FVarId := ⟨⟨0⟩⟩
  obtain ⟨ρ', hρ'⟩ := hρ.hasLeftInverse
  refine ⟨ρ', fun e => ?_⟩
  rw [rename_rename]
  exact rename_eq_self (fvarsIn_of_forall hρ' e)

theorem rename_injective (hρ : Function.Injective ρ) : Function.Injective (rename ρ) := by
  obtain ⟨ρ', hback⟩ := exists_rename_rename hρ
  intro e e' h
  rw [← hback e, h, hback]

theorem rename_lift (amount : UInt32) (e : Expr) :
    (e.lift amount).rename ρ = (e.rename ρ).lift amount := by
  unfold lift liftAt
  rw [rename_mapVars, mapVars_rename]
  congr 1
  funext d i
  split <;> rfl

theorem rename_instantiate (e v : Expr) :
    (e.instantiate v).rename ρ = (e.rename ρ).instantiate (v.rename ρ) := by
  unfold instantiate
  rw [rename_mapVars, mapVars_rename]
  congr 1
  funext d i
  by_cases hid : i = d
  · rw [if_pos hid, if_pos hid, rename_lift]
  · rw [if_neg hid, if_neg hid]
    split <;> rfl

/-- The variable that is abstracted is renamed like all others, so no other
variable may become the same. -/
theorem rename_abstractFVar (hρ : Function.Injective ρ) (e : Expr) (x : FVarId) :
    (e.abstractFVar x).rename ρ = (e.rename ρ).abstractFVar (ρ x) := by
  unfold abstractFVar
  rw [rename_mapVars, mapVars_rename]
  congr 1
  · funext d i
    split <;> rfl
  · funext d y
    by_cases hy : y = x
    · rw [if_pos hy, if_pos (congrArg ρ hy)]
      rfl
    · rw [if_neg hy, if_neg fun h => hy (hρ h)]
      rfl

theorem rename_mkApp (f : Expr) (args : List Expr) :
    (mkApp f args).rename ρ = mkApp (f.rename ρ) (args.map (rename ρ)) := by
  induction args generalizing f with
  | nil => rfl
  | cons a args ih => rw [mkApp_cons, ih, List.map_cons, mkApp_cons, rename]

theorem appFn_rename (e : Expr) : (e.rename ρ).appFn = e.appFn.rename ρ := by
  induction e with
  | app f a ihf _ => exact ihf
  | _ => rfl

theorem appArgs_rename (e : Expr) : (e.rename ρ).appArgs = e.appArgs.map (rename ρ) := by
  have haux : ∀ (e : Expr) (rest : List Expr),
      (e.rename ρ).appArgsAux (rest.map (rename ρ)) = (e.appArgsAux rest).map (rename ρ) := by
    intro e
    induction e with
    | app f a ihf _ =>
      intro rest
      exact ihf (a :: rest)
    | _ =>
      intro rest
      rfl
  exact haux e []

end Expr

/-! ### Reduction -/

/-- Whether all free variables of constants are as asked. -/
def Environment.FVarsIn (p : FVarId → Prop) (env : Environment) : Prop :=
  ∀ c ∈ env.constants, c.type.FVarsIn p ∧ ∀ v, c.value = some v → v.FVarsIn p

/-- Whether no constant has a free variable. -/
def Environment.FVarFree (env : Environment) : Prop :=
  ∀ c ∈ env.constants, c.type.FVarsIn (fun _ => False) ∧
    ∀ v, c.value = some v → v.FVarsIn fun _ => False

namespace Environment

open Pinpoint.Expr (rename rename_eq_self rename_instantiate rename_mkApp appFn_rename appArgs_rename
  exists_rename_rename rename_injective)

variable {env : Environment} {t : Transparency} {n : Nat} {p q : FVarId → Prop}
  {ρ : FVarId → FVarId} {e e' : Expr} {c : Name} {ls : List Level} {v : Expr}

theorem FVarsIn.mono (henv : env.FVarsIn p) (hpq : ∀ x, p x → q x) : env.FVarsIn q :=
  fun c hc => ⟨(henv c hc).1.mono hpq, fun v hv => ((henv c hc).2 v hv).mono hpq⟩

theorem FVarFree.fvarsIn (henv : env.FVarFree) : env.FVarsIn p :=
  FVarsIn.mono henv fun _ => False.elim

theorem FVarsIn.valueAt? (henv : env.FVarsIn p) (hv : env.valueAt? t c ls = some v) :
    v.FVarsIn p := by
  cases t with
  | reducible => cases hv
  | all =>
    obtain ⟨info, subst, w, hinfo, -, hw, rfl⟩ := value?_eq_some hv
    exact Expr.FVarsIn.instantiateLevels.mpr
      ((henv info (List.mem_of_find?_eq_some hinfo)).2 w hw)

/-- Reduction brings in no free variables but those of constants. -/
theorem FVarsIn.whnf (henv : env.FVarsIn p) (h : env.whnf t n e = some e') (he : e.FVarsIn p) :
    e'.FVarsIn p :=
  whnf_preserves (fun _ _ he => he) (fun _ _ _ he => he.2.2.instantiate he.2.1)
    (fun _ _ _ _ hf ha => hf.2.instantiate ha) (fun _ _ => Iff.rfl)
    (fun _ _ _ hv => henv.valueAt? hv) h he

theorem FVarFree.rename_valueAt? (henv : env.FVarFree) (hv : env.valueAt? t c ls = some v) :
    v.rename ρ = v :=
  rename_eq_self (henv.fvarsIn.valueAt? hv)

/-- A renaming commutes with reduction. -/
theorem FVarFree.whnf_rename (henv : env.FVarFree) (h : env.whnf t n e = some e') :
    env.whnf t n (e.rename ρ) = some (e'.rename ρ) := by
  induction n generalizing e e' with
  | zero => cases h
  | succ n ih =>
    cases e with
    | mdata m e => exact ih h
    | letE type v b =>
      rw [whnf_letE] at h
      rw [rename, whnf_letE, ← rename_instantiate]
      exact ih h
    | const c ls =>
      cases hv : env.valueAt? t c ls with
      | some v =>
        rw [whnf_const_of_value hv] at h
        have h := ih h
        -- Values of constants have no free variables.
        rw [henv.rename_valueAt? hv] at h
        rw [rename, whnf_const_of_value hv, h]
      | none =>
        rw [whnf_const_of_none hv] at h
        rw [rename, whnf_const_of_none hv, ← Option.some.inj h, rename]
    | app f a =>
      obtain ⟨head, hhead, h⟩ := whnf_app_cases h
      -- The head reduces to the renamed head, so the same rule applies to the renamed spine.
      have hhead := ih hhead
      rw [← appFn_rename] at hhead
      rcases h with ⟨i, d, b, arg, args, rfl, heq, h⟩ | ⟨c, ls, v, rfl, hv, h⟩ | ⟨hstuck, rfl⟩
      · have hargs : ((Expr.app f a).rename ρ).appArgs = arg.rename ρ :: args.map (rename ρ) := by
          rw [appArgs_rename, heq, List.map_cons]
        have h := ih h
        rw [rename_mkApp, rename_instantiate] at h
        exact (whnf_app_of_lam hhead hargs).trans h
      · have h := ih h
        rw [rename_mkApp, henv.rename_valueAt? hv, ← appArgs_rename] at h
        exact (whnf_app_of_value hhead hv).trans h
      · refine whnf_app_of_stuck hhead ⟨fun i d b hlam => ?_, fun c ls hconst => ?_⟩
        · cases head <;> cases hlam
          exact hstuck.1 _ _ _ rfl
        · cases head <;> cases hconst
          exact hstuck.2 _ _ rfl
    | _ =>
      obtain rfl := Option.some.inj h
      rfl

/-- A renaming of different variables to different ones commutes with reduction,
also where fuel runs out. -/
theorem FVarFree.whnf_rename_eq (henv : env.FVarFree) (hρ : Function.Injective ρ) (e : Expr) :
    env.whnf t n (e.rename ρ) = (env.whnf t n e).map (rename ρ) := by
  cases h : env.whnf t n e with
  | some e' => exact henv.whnf_rename h
  | none =>
    obtain ⟨ρ', hback⟩ := exists_rename_rename hρ
    cases h' : env.whnf t n (e.rename ρ) with
    | none => rfl
    | some e' =>
      have hsome := henv.whnf_rename (ρ := ρ') h'
      rw [hback, h] at hsome
      cases hsome

theorem compareParts_rename (hρ : Function.Injective ρ) {cmp : Expr → Expr → Option Bool}
    (hcmp : ∀ a b : Expr, cmp (a.rename ρ) (b.rename ρ) = cmp a b) (a b : Expr) :
    compareParts cmp (a.rename ρ) (b.rename ρ) = compareParts cmp a b := by
  have hsame : some (decide (a.rename ρ = b.rename ρ)) = some (decide (a = b)) := by
    rw [decide_eq_decide.mpr (rename_injective hρ).eq_iff]
  cases a <;> cases b <;> first | exact hsame | simp only [compareParts, rename, hcmp]

/-- It keeps equality by definition, also where fuel runs out. -/
theorem FVarFree.isDefEq_rename (henv : env.FVarFree) (hρ : Function.Injective ρ) (a b : Expr) :
    env.isDefEq t n (a.rename ρ) (b.rename ρ) = env.isDefEq t n a b := by
  induction n generalizing a b with
  | zero => rfl
  | succ n ih =>
    rw [isDefEq_succ, isDefEq_succ, henv.whnf_rename_eq hρ, henv.whnf_rename_eq hρ]
    by_cases hab : a = b
    · rw [if_pos hab, if_pos (congrArg _ hab)]
    · rw [if_neg hab, if_neg fun h => hab (rename_injective hρ h)]
      cases env.whnf t n a with
      | none => rfl
      | some a' =>
        cases env.whnf t n b with
        | none => rfl
        | some b' => exact compareParts_rename hρ ih a' b'

end Environment

end Pinpoint
