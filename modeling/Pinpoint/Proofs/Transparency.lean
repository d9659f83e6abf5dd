/-
Definitional equality at the two transparencies.

Terms that are equal without unfolding constants are equal with it, as far as
the comparisons end within the widths of the machine.  For the calculus this is
confluence, but there the values of constants mention no variables, while the
declarations of the checker can hold free ones.  To reduction a free variable is
a constant that does not unfold, so `freeze` makes constants of all free
variables, in terms and in declarations, and nothing else changes.

* `whnf_frozen`, `isDefEq_frozen` — reduction and comparison do the same with
  frozen terms, also where fuel runs out;
* `Closed.decides_all_of_reducible` — what is equal without unfolding constants
  is not found different with it.
-/
import Pinpoint.Proofs.DefinitionalEquality
import Pinpoint.Proofs.Widths

namespace Pinpoint

/-! ### Frozen terms -/

/-- The constant that stands for a free variable. -/
def FVarId.frozen (x : FVarId) : Name := ⟨[.num x.id]⟩

/-- The name of a constant beside those that stand for free variables. -/
def Name.beside (c : Name) : Name := c.str ""

@[simp] theorem FVarId.frozen_inj {x y : FVarId} : x.frozen = y.frozen ↔ x = y := by
  cases x
  cases y
  simp [FVarId.frozen]

@[simp] theorem Name.beside_inj {c c' : Name} : c.beside = c'.beside ↔ c = c' := by
  cases c
  cases c'
  simp [Name.beside, Name.str]

@[simp] theorem Name.beside_ne_frozen (c : Name) (x : FVarId) : c.beside ≠ x.frozen := by
  intro h
  have hlast := congrArg (fun n : Name => n.parts.getLast?) h
  simp [Name.beside, FVarId.frozen] at hlast

@[simp] theorem Name.frozen_ne_beside (c : Name) (x : FVarId) : x.frozen ≠ c.beside :=
  (Name.beside_ne_frozen c x).symm

namespace Expr

/-- The term with a constant in the place of each free variable. -/
def freeze : Expr → Expr
  | .bvar i => .bvar i
  | .fvar x => .const x.frozen []
  | .sort l => .sort l
  | .const c ls => .const c.beside ls
  | .app f a => .app f.freeze a.freeze
  | .lam i t b => .lam i t.freeze b.freeze
  | .pi i t b => .pi i t.freeze b.freeze
  | .letE t v b => .letE t.freeze v.freeze b.freeze
  | .lit v => .lit v
  | .mdata m e => .mdata m e.freeze

theorem freeze_injective : Function.Injective freeze := by
  intro e e' h
  induction e generalizing e' with
  | fvar x =>
    cases e' <;> simp only [freeze, const.injEq, reduceCtorEq] at h
    · rw [FVarId.frozen_inj.mp h.1]
    · exact absurd h.1 (Name.frozen_ne_beside _ x)
  | const c ls =>
    cases e' <;> simp only [freeze, const.injEq, reduceCtorEq] at h
    · exact absurd h.1 (Name.beside_ne_frozen c _)
    · rw [Name.beside_inj.mp h.1, h.2]
  | app f a ihf iha =>
    cases e' <;> simp only [freeze, app.injEq, reduceCtorEq] at h
    rw [ihf h.1, iha h.2]
  | lam i t b iht ihb =>
    cases e' <;> simp only [freeze, lam.injEq, reduceCtorEq] at h
    rw [h.1, iht h.2.1, ihb h.2.2]
  | pi i t b iht ihb =>
    cases e' <;> simp only [freeze, pi.injEq, reduceCtorEq] at h
    rw [h.1, iht h.2.1, ihb h.2.2]
  | letE t v b iht ihv ihb =>
    cases e' <;> simp only [freeze, letE.injEq, reduceCtorEq] at h
    rw [iht h.1, ihv h.2.1, ihb h.2.2]
  | mdata m e ih =>
    cases e' <;> simp only [freeze, mdata.injEq, reduceCtorEq] at h
    rw [h.1, ih h.2]
  | _ => cases e' <;> simp_all [freeze]

theorem freeze_mapVars (f : UInt32 → UInt32 → Expr) (d : UInt32) (e : Expr) :
    (mapVars f (fun _ x => .fvar x) d e).freeze =
      mapVars (fun d i => (f d i).freeze) (fun _ x => .fvar x) d e.freeze := by
  induction e generalizing d with
  | app _ _ ihf iha => simp only [mapVars, freeze, ihf, iha]
  | lam _ _ _ iht ihb | pi _ _ _ iht ihb => simp only [mapVars, freeze, iht, ihb]
  | letE _ _ _ iht ihv ihb => simp only [mapVars, freeze, iht, ihv, ihb]
  | mdata _ _ ih => simp only [mapVars, freeze, ih]
  | _ => rfl

theorem freeze_lift (amount : UInt32) (e : Expr) :
    (e.lift amount).freeze = e.freeze.lift amount := by
  unfold lift liftAt
  rw [freeze_mapVars]
  congr 1
  funext d i
  split <;> rfl

theorem freeze_instantiate (e v : Expr) :
    (e.instantiate v).freeze = e.freeze.instantiate v.freeze := by
  unfold instantiate
  rw [freeze_mapVars]
  congr 1
  funext d i
  by_cases hid : i = d
  · rw [if_pos hid, if_pos hid, freeze_lift]
  · rw [if_neg hid, if_neg hid]
    split <;> rfl

theorem freeze_instantiateLevels (s : List (Name × Level)) (e : Expr) :
    (e.instantiateLevels s).freeze = e.freeze.instantiateLevels s := by
  induction e with
  | app _ _ ihf iha => simp only [instantiateLevels, freeze, ihf, iha]
  | lam _ _ _ iht ihb | pi _ _ _ iht ihb => simp only [instantiateLevels, freeze, iht, ihb]
  | letE _ _ _ iht ihv ihb => simp only [instantiateLevels, freeze, iht, ihv, ihb]
  | mdata _ _ ih => simp only [instantiateLevels, freeze, ih]
  | _ => rfl

theorem freeze_mkApp (f : Expr) (args : List Expr) :
    (mkApp f args).freeze = mkApp f.freeze (args.map freeze) := by
  induction args generalizing f with
  | nil => rfl
  | cons a args ih => rw [mkApp_cons, ih, List.map_cons, mkApp_cons, freeze]

theorem appFn_freeze (e : Expr) : e.freeze.appFn = e.appFn.freeze := by
  induction e with
  | app f a ihf _ => exact ihf
  | _ => rfl

theorem appArgs_freeze (e : Expr) : e.freeze.appArgs = e.appArgs.map freeze := by
  suffices h : ∀ rest, e.freeze.appArgsAux (rest.map freeze) = (e.appArgsAux rest).map freeze
    from h []
  induction e with
  | app f a ihf _ => exact fun rest => ihf (a :: rest)
  | _ => exact fun _ => rfl

theorem span_freeze (e : Expr) : e.freeze.span = e.span := by
  induction e with
  | app _ _ ihf iha => simp only [freeze, span, ihf, iha]
  | lam _ _ _ iht ihb | pi _ _ _ iht ihb => simp only [freeze, span, iht, ihb]
  | letE _ _ _ iht ihv ihb => simp only [freeze, span, iht, ihv, ihb]
  | mdata _ _ ih => exact ih
  | _ => rfl

theorem scoped_freeze {n : Nat} {e : Expr} (h : e.Scoped n) : e.freeze.Scoped n := by
  induction e generalizing n with
  | bvar i => exact h
  | app _ _ ihf iha => exact ⟨ihf h.1, iha h.2⟩
  | lam _ _ _ iht ihb | pi _ _ _ iht ihb => exact ⟨iht h.1, ihb h.2⟩
  | letE _ _ _ iht ihv ihb => exact ⟨iht h.1, ihv h.2.1, ihb h.2.2⟩
  | mdata _ _ ih => exact ih h
  | _ => trivial

/-- A frozen term has no free variables. -/
theorem fvarsIn_freeze (e : Expr) : e.freeze.FVarsIn fun _ => False := by
  induction e with
  | app _ _ ihf iha => exact ⟨ihf, iha⟩
  | lam _ _ _ iht ihb | pi _ _ _ iht ihb => exact ⟨iht, ihb⟩
  | letE _ _ _ iht ihv ihb => exact ⟨iht, ihv, ihb⟩
  | mdata _ _ ih => exact ih
  | _ => trivial

end Expr

/-! ### Frozen environments -/

/-- The declaration with frozen terms. -/
def Constant.freeze (c : Constant) : Constant :=
  ⟨c.name.beside, c.levelParams, c.type.freeze, c.value.map Expr.freeze⟩

namespace Environment

/-- The environment with frozen declarations. -/
def frozen (env : Environment) : Environment := ⟨env.constants.map Constant.freeze⟩

open Pinpoint.Expr (freeze)

variable {env : Environment} {t : Transparency} {n : Nat}

/-- The constants of a frozen environment have no variables but their own. -/
theorem Closed.ground_frozen (henv : env.Closed) : env.frozen.Ground := by
  constructor
  · intro c hc
    obtain ⟨info, hinfo, rfl⟩ := List.mem_map.mp hc
    refine ⟨Expr.scoped_freeze (henv info hinfo).1, fun v hv => ?_⟩
    obtain ⟨w, hw, rfl⟩ := Option.map_eq_some_iff.mp hv
    exact Expr.scoped_freeze ((henv info hinfo).2 w hw)
  · intro c hc
    obtain ⟨info, -, rfl⟩ := List.mem_map.mp hc
    refine ⟨Expr.fvarsIn_freeze info.type, fun v hv => ?_⟩
    obtain ⟨w, -, rfl⟩ := Option.map_eq_some_iff.mp hv
    exact Expr.fvarsIn_freeze w

theorem find?_frozen (c : Name) :
    env.frozen.find? c.beside = (env.find? c).map Constant.freeze := by
  unfold find? frozen
  rw [List.find?_map]
  congr 2
  funext d
  exact decide_eq_decide.mpr Name.beside_inj

theorem find?_frozen_fvar (x : FVarId) : env.frozen.find? x.frozen = none := by
  refine List.find?_eq_none.mpr fun c hc => ?_
  obtain ⟨info, -, rfl⟩ := List.mem_map.mp hc
  exact fun h => Name.beside_ne_frozen info.name x (of_decide_eq_true h)

theorem valueAt?_frozen (c : Name) (ls : List Level) :
    env.frozen.valueAt? t c.beside ls = (env.valueAt? t c ls).map freeze := by
  cases t with
  | reducible => rfl
  | all =>
    show env.frozen.value? c.beside ls = (env.value? c ls).map freeze
    unfold value? Constant.instantiateValue Constant.levelSubst
    rw [find?_frozen]
    cases env.find? c with
    | none => rfl
    | some info =>
      simp only [Option.map_some, Option.bind_eq_bind, Option.bind_some, Constant.freeze]
      by_cases hlen : ls.length = info.levelParams.length
      · simp only [if_pos hlen, Except.map, Except.toOption, Option.bind_some]
        cases info.value with
        | none => rfl
        | some v => exact congrArg some (Expr.freeze_instantiateLevels _ v).symm
      · simp only [if_neg hlen, Except.map, Except.toOption, Option.bind_none, Option.map_none]

theorem valueAt?_frozen_fvar (x : FVarId) : env.frozen.valueAt? t x.frozen [] = none := by
  cases t with
  | reducible => rfl
  | all =>
    show env.frozen.value? x.frozen [] = none
    rw [value?, find?_frozen_fvar]
    rfl

/-! ### Reduction -/

/-- A reduction of an application, by what it is contracted to. -/
theorem whnf_app (f a : Expr) :
    env.whnf t (n + 1) (.app f a) = (env.whnf t n f.appFn).bind fun head =>
      (env.contract? t head (Expr.app f a).appArgs).elim (some (.app f a)) (env.whnf t n) := by
  rw [whnf]
  refine Option.bind_congr fun head _ => ?_
  cases hargs : (Expr.app f a).appArgs with
  | nil => exact absurd hargs (appArgs_app_ne_nil f a)
  | cons arg args =>
    cases head with
    | const c ls => cases hv : env.valueAt? t c ls <;> simp [contract?, hv]
    | _ => rfl

theorem contract?_frozen (head : Expr) (args : List Expr) :
    env.frozen.contract? t head.freeze (args.map freeze) =
      (env.contract? t head args).map freeze := by
  cases head with
  | lam i d b =>
    cases args with
    | nil => rfl
    | cons a args => exact congrArg some (by rw [Expr.freeze_mkApp, Expr.freeze_instantiate])
  | const c ls =>
    simp only [contract?, freeze, valueAt?_frozen, Option.map_map]
    congr 1
    funext v
    exact (Expr.freeze_mkApp v args).symm
  | fvar x => simp only [contract?, freeze, valueAt?_frozen_fvar, Option.map_none]
  | _ => rfl

/-- Reduction does the same with frozen terms. -/
theorem whnf_frozen (e : Expr) : env.frozen.whnf t n e.freeze = (env.whnf t n e).map freeze := by
  induction n generalizing e with
  | zero => rfl
  | succ n ih =>
    cases e with
    | mdata m e => exact ih e
    | letE type v b =>
      rw [freeze, whnf_letE, whnf_letE, ← Expr.freeze_instantiate, ih]
    | const c ls =>
      have hv := env.valueAt?_frozen (t := t) c ls
      cases hvalue : env.valueAt? t c ls with
      | some v =>
        rw [hvalue] at hv
        rw [freeze, whnf_const_of_value hv, whnf_const_of_value hvalue, ih]
      | none =>
        rw [hvalue] at hv
        rw [freeze, whnf_const_of_none hv, whnf_const_of_none hvalue]
        rfl
    | fvar x => exact whnf_const_of_none (valueAt?_frozen_fvar x)
    | app f a =>
      have hargs : (Expr.app f.freeze a.freeze).appArgs = (Expr.app f a).appArgs.map freeze :=
        Expr.appArgs_freeze (.app f a)
      rw [freeze, whnf_app, whnf_app, Expr.appFn_freeze, ih, hargs, Option.bind_map,
        Option.map_bind]
      refine Option.bind_congr fun head _ => ?_
      simp only [Function.comp_apply, contract?_frozen]
      cases env.contract? t head (Expr.app f a).appArgs with
      | none => rfl
      | some e => exact ih e
    | _ => rfl

theorem compareParts_freeze {cmp cmp' : Expr → Expr → Option Bool}
    (hcmp : ∀ a b : Expr, cmp' a.freeze b.freeze = cmp a b) (a b : Expr) :
    compareParts cmp' a.freeze b.freeze = compareParts cmp a b := by
  have hsame : some (decide (a.freeze = b.freeze)) = some (decide (a = b)) := by
    rw [decide_eq_decide.mpr Expr.freeze_injective.eq_iff]
  cases a <;> cases b <;> first | exact hsame | simp [compareParts, freeze, hcmp]

/-- So does the comparison. -/
theorem isDefEq_frozen (a b : Expr) :
    env.frozen.isDefEq t n a.freeze b.freeze = env.isDefEq t n a b := by
  induction n generalizing a b with
  | zero => rfl
  | succ n ih =>
    rw [isDefEq_succ, isDefEq_succ, whnf_frozen, whnf_frozen]
    by_cases hab : a = b
    · rw [if_pos hab, if_pos (congrArg _ hab)]
    · rw [if_neg hab, if_neg fun h => hab (Expr.freeze_injective h), Option.bind_map]
      refine Option.bind_congr fun a' _ => ?_
      simp only [Function.comp_apply, Option.bind_map]
      exact Option.bind_congr fun b' _ => compareParts_freeze ih a' b'

theorem narrow_freeze (e : Expr) : e.freeze.Narrow ↔ e.Narrow := by
  rw [Expr.Narrow, Expr.span_freeze, Expr.Narrow]

theorem whnfWithin_frozen (e : Expr) :
    env.frozen.whnfWithin t n e.freeze = env.whnfWithin t n e := by
  induction n generalizing e with
  | zero => rfl
  | succ n ih =>
    -- Each node is compared first by its width and then by what it reduces to.
    have hnarrow : decide e.freeze.Narrow = decide e.Narrow :=
      decide_eq_decide.mpr (narrow_freeze e)
    cases e with
    | mdata m e => exact congrArg₂ (· && ·) hnarrow (ih e)
    | letE type v b =>
      refine congrArg₂ (· && ·) hnarrow ?_
      show env.frozen.whnfWithin t n (b.freeze.instantiate v.freeze) = _
      rw [← Expr.freeze_instantiate, ih]
    | const c ls =>
      refine congrArg₂ (· && ·) hnarrow ?_
      show (env.frozen.valueAt? t c.beside ls).all _ = _
      rw [valueAt?_frozen, Option.all_map]
      exact congrArg (Option.all · _) (funext ih)
    | fvar x =>
      refine congrArg₂ (· && ·) hnarrow ?_
      show (env.frozen.valueAt? t x.frozen []).all _ = _
      rw [valueAt?_frozen_fvar]
      rfl
    | app f a =>
      refine congrArg₂ (· && ·) hnarrow ?_
      have hargs : (Expr.app f.freeze a.freeze).appArgs = (Expr.app f a).appArgs.map freeze :=
        Expr.appArgs_freeze (.app f a)
      show (env.frozen.whnfWithin t n f.freeze.appFn &&
        (env.frozen.whnf t n f.freeze.appFn).all fun head =>
          (env.frozen.contract? t head (Expr.app f.freeze a.freeze).appArgs).all _) = _
      rw [hargs, Expr.appFn_freeze, ih, whnf_frozen, Option.all_map]
      refine congrArg (_ && ·) (congrArg (Option.all · _) (funext fun head => ?_))
      rw [contract?_frozen, Option.all_map]
      exact congrArg (Option.all · _) (funext ih)
    | _ => exact congrArg (· && true) hnarrow

theorem partsWithin_freeze {within within' : Expr → Expr → Bool}
    (h : ∀ a b : Expr, within' a.freeze b.freeze = within a b) (a b : Expr) :
    partsWithin within' a.freeze b.freeze = partsWithin within a b := by
  cases a <;> cases b <;> simp only [partsWithin, freeze, h]

theorem isDefEqWithin_frozen (a b : Expr) :
    env.frozen.isDefEqWithin t n a.freeze b.freeze = env.isDefEqWithin t n a b := by
  induction n generalizing a b with
  | zero => rfl
  | succ n ih =>
    rw [isDefEqWithin, isDefEqWithin, whnfWithin_frozen, whnfWithin_frozen, whnf_frozen, whnf_frozen,
      decide_eq_decide.mpr Expr.freeze_injective.eq_iff, Option.all_map]
    refine congrArg (_ || _ && ·) (congrArg (Option.all · _) (funext fun a' => ?_))
    rw [Option.all_map]
    exact congrArg (Option.all · _) (funext fun b' => partsWithin_freeze ih a' b')

/-! ### The two transparencies -/

/-- Whether a comparison ends, and comes across narrow terms only. -/
def EndsWithin (env : Environment) (t : Transparency) (a b : Expr) : Prop :=
  ∃ n r, env.isDefEq t n a b = some r ∧ env.isDefEqWithin t n a b

/-- Terms that are equal without unfolding constants are equal with it, if that
comparison ends as well. -/
theorem Closed.decides_all_of_reducible (henv : env.Closed) {a b : Expr}
    (h : env.Decides .reducible a b true) (hreducible : env.EndsWithin .reducible a b)
    (hall : env.EndsWithin .all a b) : env.Decides .all a b true := by
  obtain ⟨m, r, hm, hmwithin⟩ := hreducible
  obtain rfl : r = true := Decides.det ⟨m, hm⟩ h
  obtain ⟨k, r, hk, hkwithin⟩ := hall
  rw [← isDefEq_frozen] at hm
  rw [← isDefEqWithin_frozen] at hmwithin hkwithin
  -- conversion is confluent over the frozen environment, which has no variables
  have hground := henv.ground_frozen
  have hconv : Converts (hground.definitions .all) a.freeze.term b.freeze.term :=
    hground.converts_all (isDefEq_converts hground hm hmwithin)
  obtain rfl := isDefEq_of_converts hground hconv ((isDefEq_frozen a b).trans hk) hkwithin
  exact ⟨k, hk⟩

end Environment

end Pinpoint
