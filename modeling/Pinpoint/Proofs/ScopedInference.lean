/-
Inference and scoping.

* `whnf_scoped` — reduction keeps a term well scoped;
* `scoped_of_inferType`, `inferType_scoped` — a term that has a type is well
  scoped, and so is its type;
* `Environment.Checked` — environments built by checking each constant, in
  which all types and values are well scoped (`Checked.closed`).
-/
import Pinpoint.Proofs.Inference
import Pinpoint.Proofs.Reduction
import Pinpoint.Proofs.Scoping
import Pinpoint.Typing.Declaration

namespace Pinpoint

/-- Whether the types and values of all constants are well scoped. -/
def Environment.Closed (env : Environment) : Prop :=
  ∀ c ∈ env.constants, c.type.Scoped 0 ∧ ∀ v, c.value = some v → v.Scoped 0

/-- Whether the types of all variables are well scoped. -/
def LocalContext.Closed (Γ : LocalContext) : Prop := ∀ entry ∈ Γ.entries, entry.type.Scoped 0

theorem LocalContext.Closed.push {Γ : LocalContext} (h : Γ.Closed) (x : FVarId) (n : Name)
    {type : Expr} (htype : type.Scoped 0) : (Γ.push x n type).Closed := by
  intro entry hentry
  rcases List.mem_cons.mp hentry with rfl | hentry
  · exact htype
  · exact h entry hentry

theorem LocalContext.Closed.find? {Γ : LocalContext} (h : Γ.Closed) {x : FVarId}
    {entry : LocalEntry} (hx : Γ.find? x = some entry) : entry.type.Scoped 0 :=
  h entry (List.mem_of_find?_eq_some hx)

namespace Environment

variable {env : Environment} {t : Transparency}

/-! ### Reduction and inference -/

theorem Closed.valueAt? (h : env.Closed) {c : Name} {ls : List Level} {v : Expr}
    (hv : env.valueAt? t c ls = some v) : v.Scoped 0 := by
  cases t with
  | reducible => cases hv
  | all =>
    obtain ⟨info, subst, w, hinfo, -, hw, rfl⟩ := value?_eq_some hv
    exact Expr.scoped_instantiateLevels.mpr ((h info (List.mem_of_find?_eq_some hinfo)).2 w hw)

/-- Reduction keeps a term well scoped. -/
theorem whnf_scoped (henv : env.Closed) {n : Nat} {e e' : Expr}
    (h : env.whnf t n e = some e') (he : e.Scoped 0) : e'.Scoped 0 :=
  whnf_preserves (fun _ _ he => he) (fun _ _ _ he => he.2.2.instantiate he.2.1)
    (fun _ _ _ _ hf ha => hf.2.instantiate ha) (fun _ _ => Iff.rfl)
    (fun _ _ _ => henv.valueAt?) h he

/-- A term that has a type is well scoped, in whatever context. -/
theorem scoped_of_inferType {n : Nat} {Γ : LocalContext} {e T : Expr} {s s' : UInt64}
    (h : (env.inferType n Γ e).Returns s T s') : e.Scoped 0 := by
  induction n generalizing Γ e T s s' with
  | zero => exact absurd h not_inferType_zero_returns
  | succ n ih =>
    cases e with
    | bvar i => exact absurd h not_inferType_bvar_returns
    | mdata m e =>
      have he := ih (inferType_mdata_returns_iff.mp h)
      exact he
    | app f a =>
      obtain ⟨F, A, info, dom, body, t, hF, -, hA, -, -⟩ := inferType_app_returns_iff.mp h
      exact ⟨ih hF, ih hA⟩
    | lam info dom body =>
      obtain ⟨D, l, B, t, hD, -, hB, -⟩ := inferType_lam_returns_iff.mp h
      exact ⟨ih hD, (ih hB).of_instantiate⟩
    | pi info dom body =>
      obtain ⟨D, l₁, B, l₂, t, hD, -, hB, -, -⟩ := inferType_pi_returns_iff.mp h
      exact ⟨ih hD, (ih hB).of_instantiate⟩
    | letE type value body =>
      obtain ⟨D, l, A, t, t', hD, -, hA, -, hB⟩ := inferType_letE_returns_iff.mp h
      exact ⟨ih hD, ih hA, (ih hB).of_instantiate⟩
    | _ => trivial

/-- The type of a term is well scoped if all types in reach are. -/
theorem inferType_scoped (henv : env.Closed) {n : Nat} {Γ : LocalContext} {e T : Expr}
    {s s' : UInt64} (hΓ : Γ.Closed) (h : (env.inferType n Γ e).Returns s T s') :
    T.Scoped 0 := by
  induction n generalizing Γ e T s s' with
  | zero => exact absurd h not_inferType_zero_returns
  | succ n ih =>
    cases e with
    | bvar i => exact absurd h not_inferType_bvar_returns
    | fvar x =>
      obtain ⟨⟨entry, hentry, rfl⟩, -⟩ := inferType_fvar_returns_iff.mp h
      exact hΓ.find? hentry
    | sort l =>
      obtain ⟨rfl, -⟩ := inferType_sort_returns_iff.mp h
      trivial
    | const c ls =>
      obtain ⟨⟨info, hinfo, hT⟩, -⟩ := inferType_const_returns_iff.mp h
      obtain ⟨subst, -, rfl⟩ := instantiateType_eq_ok hT
      exact Expr.scoped_instantiateLevels.mpr (henv info (List.mem_of_find?_eq_some hinfo)).1
    | lit v =>
      obtain ⟨rfl, -⟩ := inferType_lit_returns_iff.mp h
      cases v <;> trivial
    | mdata m e => exact ih hΓ (inferType_mdata_returns_iff.mp h)
    | app f a =>
      obtain ⟨F, A, info, dom, body, t, hF, hpi, hA, -, rfl⟩ := inferType_app_returns_iff.mp h
      exact (whnf_scoped henv hpi (ih hΓ hF)).2.instantiate (scoped_of_inferType hA)
    | lam info dom body =>
      obtain ⟨D, l, B, t, hD, -, hB, rfl⟩ := inferType_lam_returns_iff.mp h
      have hdom := scoped_of_inferType hD
      exact ⟨hdom, (ih (hΓ.push _ _ hdom) hB).abstractFVar _⟩
    | pi info dom body =>
      obtain ⟨D, l₁, B, l₂, t, -, -, -, -, rfl⟩ := inferType_pi_returns_iff.mp h
      trivial
    | letE type value body =>
      obtain ⟨D, l, A, t, t', -, -, -, -, hB⟩ := inferType_letE_returns_iff.mp h
      exact ih hΓ hB

/-! ### Checked environments -/

/-- Environments in which every constant was checked when it was declared. -/
inductive Checked : Environment → Prop
  | empty : Checked .empty
  | declare {env env' : Environment} {fuel : Nat} {c : Constant} :
    Checked env → env.declare fuel c = some (.ok env') → Checked env'

/-- A declaration that succeeds has checked the type and the value, and adds
the constant. -/
theorem declare_eq_ok {env' : Environment} {fuel : Nat} {c : Constant}
    (h : env.declare fuel c = some (.ok env')) :
    env.contains c.name = false ∧ env' = env.push c ∧
      ∃ s, (env.checkConstant fuel c).Returns Checker.firstFresh () s := by
  unfold declare at h
  by_cases hname : env.contains c.name
  · simp [hname] at h
  · rw [if_neg hname] at h
    split at h
    · simp at h
    · rw [Bool.not_eq_true] at hname
      obtain ⟨r, hr, h⟩ := Option.map_eq_some_iff.mp h
      cases r with
      | error e => cases h
      | ok u =>
        obtain ⟨s, hs⟩ := CheckM.runFresh_eq_ok.mp hr
        exact ⟨hname, (Except.ok.inj h).symm, s, hs⟩

/-- The type is given a universe, and then the value a type that is equal to
it. -/
theorem checkConstant_returns {fuel : Nat} {c : Constant} {s s' : UInt64}
    (h : (env.checkConstant fuel c).Returns s () s') :
    ∃ T l t, (env.inferType fuel .empty c.type).Returns s T t ∧
      env.whnf .all fuel T = some (.sort l) ∧ ∀ v, c.value = some v →
        ∃ V t', (env.inferType fuel .empty v).Returns t V t' ∧
          env.isDefEq .all fuel V c.type = some true := by
  unfold checkConstant Checker.ensureSort at h
  simp only [CheckM.returns_bind, sortOfType_returns_iff] at h
  obtain ⟨l, t, ⟨T, t, hT, hl, rfl⟩, h⟩ := h
  refine ⟨T, l, t, hT, hl, fun v hv => ?_⟩
  rw [hv] at h
  obtain ⟨V, t', hV, h⟩ := CheckM.returns_bind.mp h
  obtain ⟨r, t'', hlift, h⟩ := CheckM.returns_bind.mp h
  obtain ⟨hr, rfl⟩ := CheckM.returns_lift.mp hlift
  refine ⟨V, t', hV, ?_⟩
  cases r with
  | false => exact absurd h CheckM.not_returns_throw
  | true => exact hr

/-- What every declaration keeps is kept by declarations in order, if all of
them succeed. -/
theorem of_declareAll {P : Environment → Prop}
    (hstep : ∀ {env env' : Environment} {fuel : Nat} {c : Constant}, P env →
      env.declare fuel c = some (.ok env') → P env')
    {env' : Environment} {fuel : Nat} {cs : List Constant} (henv : P env)
    (h : env.declareAll fuel cs = some (env', .ok ())) : P env' := by
  induction cs generalizing env with
  | nil =>
    obtain rfl : env = env' := by simpa [declareAll] using h
    exact henv
  | cons c cs ih =>
    obtain ⟨r, hr, h⟩ := Option.bind_eq_some_iff.mp h
    cases r with
    | error e => simp at h
    | ok env₁ => exact ih (hstep henv hr) h

/-- In a checked environment all types and values are well scoped. -/
theorem Checked.closed (h : env.Checked) : env.Closed := by
  induction h with
  | empty =>
    intro c hc
    cases hc
  | declare _ hdeclare ih =>
    obtain ⟨-, rfl, s, hs⟩ := declare_eq_ok hdeclare
    obtain ⟨T, l, t, hT, -, hvalue⟩ := checkConstant_returns hs
    intro c hc
    rcases List.mem_append.mp hc with hc | hc
    · exact ih c hc
    · obtain rfl := List.mem_singleton.mp hc
      refine ⟨scoped_of_inferType hT, fun v hv => ?_⟩
      obtain ⟨V, t', hV, -⟩ := hvalue v hv
      exact scoped_of_inferType hV

end Environment

end Pinpoint
