/-
Inference, constructor by constructor.

`inferType` gives a term a type exactly if it gives types to its parts that
fit.  There is one lemma for each constructor that says so; the supply of
free variables is threaded through the parts in order.
-/
import Pinpoint.Proofs.Skeleton
import Pinpoint.Proofs.Supply

namespace Pinpoint.Environment

variable {env : Environment} {n : Nat} {Γ : LocalContext} {s s' : UInt64} {T : Expr}

theorem sortOfType_returns_iff {e type : Expr} {l : Level} :
    (env.sortOfType n e type).Returns s l s' ↔ env.whnf .all n type = some (.sort l) ∧ s = s' := by
  unfold sortOfType
  rw [CheckM.returns_bind]
  simp only [CheckM.returns_lift]
  constructor
  · rintro ⟨e', t, ⟨he, rfl⟩, h⟩
    split at h
    · obtain ⟨rfl, rfl⟩ := CheckM.returns_pure.mp h
      exact ⟨he, rfl⟩
    · exact absurd h CheckM.not_returns_throw
  · rintro ⟨he, rfl⟩
    exact ⟨_, s, ⟨he, rfl⟩, CheckM.returns_pure.mpr ⟨rfl, rfl⟩⟩

theorem not_inferType_zero_returns {e : Expr} : ¬ (env.inferType 0 Γ e).Returns s T s' := by
  intro h
  cases (show (none : Option (Except CheckError Expr × UInt64)) = some (.ok T, s') from h)

theorem not_inferType_bvar_returns {i : UInt32} : ¬ (env.inferType n Γ (.bvar i)).Returns s T s' := by
  rcases n with _ | n
  · exact not_inferType_zero_returns
  · exact CheckM.not_returns_throw

theorem inferType_fvar_returns_iff {x : FVarId} :
    (env.inferType (n + 1) Γ (.fvar x)).Returns s T s' ↔
      (∃ entry, Γ.find? x = some entry ∧ entry.type = T) ∧ s = s' := by
  rw [inferType]
  cases hx : Γ.find? x with
  | none => simp [CheckM.not_returns_throw]
  | some entry => simp [CheckM.returns_pure]

theorem inferType_sort_returns_iff {l : Level} :
    (env.inferType (n + 1) Γ (.sort l)).Returns s T s' ↔ .sort (.succ l) = T ∧ s = s' :=
  CheckM.returns_pure

theorem inferType_const_returns_iff {c : Name} {ls : List Level} :
    (env.inferType (n + 1) Γ (.const c ls)).Returns s T s' ↔
      (∃ info, env.find? c = some info ∧ info.instantiateType ls = .ok T) ∧ s = s' := by
  rw [inferType]
  cases hc : env.find? c with
  | none => simp [CheckM.not_returns_throw]
  | some info => simp [CheckM.returns_ofExcept]

theorem inferType_lit_returns_iff {v : Literal} :
    (env.inferType (n + 1) Γ (.lit v)).Returns s T s' ↔
      (match v with
        | .nat _ => .const Vocabulary.nat []
        | .str _ => .const Vocabulary.string []) = T ∧ s = s' := by
  cases v <;> exact CheckM.returns_pure

theorem inferType_mdata_returns_iff {m : List (Name × MDataValue)} {e : Expr} :
    (env.inferType (n + 1) Γ (.mdata m e)).Returns s T s' ↔
      (env.inferType n Γ e).Returns s T s' :=
  Iff.rfl

theorem inferType_app_returns_iff {f a : Expr} :
    (env.inferType (n + 1) Γ (.app f a)).Returns s T s' ↔
      ∃ F A info dom body t, (env.inferType n Γ f).Returns s F t ∧
        env.whnf .all n F = some (.pi info dom body) ∧ (env.inferType n Γ a).Returns t A s' ∧
        env.isDefEq .all n A dom = some true ∧ body.instantiate a = T := by
  refine CheckM.returns_bind.trans ?_
  simp only [CheckM.returns_bind, CheckM.returns_lift]
  constructor
  · rintro ⟨F, t, hF, F', _, ⟨hF', rfl⟩, h⟩
    split at h
    · rename_i info dom body
      simp only [CheckM.returns_bind, CheckM.returns_lift, CheckM.returns_guard,
        CheckM.returns_pure] at h
      obtain ⟨A, _, hA, _, _, ⟨hdom, rfl⟩, rfl, rfl, rfl⟩ := h
      exact ⟨F, A, info, dom, body, t, hF, hF', hA, hdom, rfl⟩
    · exact absurd h CheckM.not_returns_throw
  · rintro ⟨F, A, info, dom, body, t, hF, hF', hA, hdom, rfl⟩
    refine ⟨F, t, hF, _, t, ⟨hF', rfl⟩, ?_⟩
    simp only [CheckM.returns_bind, CheckM.returns_lift, CheckM.returns_guard, CheckM.returns_pure]
    exact ⟨A, s', hA, true, s', ⟨hdom, rfl⟩, rfl, trivial, rfl⟩

/-- The context and the body once a binder is opened with the next variable. -/
theorem inferType_lam_returns_iff {info : BinderInfo} {dom body : Expr} :
    (env.inferType (n + 1) Γ (.lam info dom body)).Returns s T s' ↔
      ∃ D l B t, (env.inferType n Γ dom).Returns s D t ∧ env.whnf .all n D = some (.sort l) ∧
        (env.inferType n (Γ.push ⟨t⟩ (.simple "x") dom) (body.instantiate (.fvar ⟨t⟩))).Returns
          (t + 1) B s' ∧
        .pi info dom (B.abstractFVar ⟨t⟩) = T := by
  refine CheckM.returns_bind.trans ?_
  simp only [CheckM.returns_bind, CheckM.returns_fresh, CheckM.returns_pure, sortOfType_returns_iff]
  constructor
  · rintro ⟨D, t, hD, l, _, ⟨hl, rfl⟩, _, _, ⟨rfl, rfl⟩, B, _, hB, rfl, rfl⟩
    exact ⟨D, l, B, t, hD, hl, hB, rfl⟩
  · rintro ⟨D, l, B, t, hD, hl, hB, rfl⟩
    exact ⟨D, t, hD, l, t, ⟨hl, rfl⟩, _, _, ⟨rfl, rfl⟩, B, s', hB, rfl, rfl⟩

theorem inferType_pi_returns_iff {info : BinderInfo} {dom body : Expr} :
    (env.inferType (n + 1) Γ (.pi info dom body)).Returns s T s' ↔
      ∃ D l₁ B l₂ t, (env.inferType n Γ dom).Returns s D t ∧ env.whnf .all n D = some (.sort l₁) ∧
        (env.inferType n (Γ.push ⟨t⟩ (.simple "x") dom) (body.instantiate (.fvar ⟨t⟩))).Returns
          (t + 1) B s' ∧
        env.whnf .all n B = some (.sort l₂) ∧ .sort (Level.imax l₁ l₂).simplify = T := by
  refine CheckM.returns_bind.trans ?_
  simp only [CheckM.returns_bind, CheckM.returns_fresh, CheckM.returns_pure, sortOfType_returns_iff]
  constructor
  · rintro ⟨D, t, hD, l₁, _, ⟨hl₁, rfl⟩, _, _, ⟨rfl, rfl⟩, B, _, hB, l₂, _, ⟨hl₂, rfl⟩, rfl, rfl⟩
    exact ⟨D, l₁, B, l₂, t, hD, hl₁, hB, hl₂, rfl⟩
  · rintro ⟨D, l₁, B, l₂, t, hD, hl₁, hB, hl₂, rfl⟩
    exact ⟨D, t, hD, l₁, t, ⟨hl₁, rfl⟩, _, _, ⟨rfl, rfl⟩, B, s', hB, l₂, s', ⟨hl₂, rfl⟩, rfl, rfl⟩

theorem inferType_letE_returns_iff {type value body : Expr} :
    (env.inferType (n + 1) Γ (.letE type value body)).Returns s T s' ↔
      ∃ D l A t t', (env.inferType n Γ type).Returns s D t ∧ env.whnf .all n D = some (.sort l) ∧
        (env.inferType n Γ value).Returns t A t' ∧ env.isDefEq .all n A type = some true ∧
        (env.inferType n Γ (body.instantiate value)).Returns t' T s' := by
  refine CheckM.returns_bind.trans ?_
  simp only [CheckM.returns_bind, CheckM.returns_lift, CheckM.returns_guard, sortOfType_returns_iff]
  constructor
  · rintro ⟨D, t, hD, l, _, ⟨hl, rfl⟩, A, t', hA, _, _, ⟨htype, rfl⟩, rfl, h⟩
    exact ⟨D, l, A, t, t', hD, hl, hA, htype, h⟩
  · rintro ⟨D, l, A, t, t', hD, hl, hA, htype, h⟩
    exact ⟨D, t, hD, l, t, ⟨hl, rfl⟩, A, t', hA, true, t', ⟨htype, rfl⟩, rfl, h⟩

/-- A term that has a type is no bound variable, also under metadata. -/
theorem skeleton_ne_bvar_of_inferType {e : Expr} (h : (env.inferType n Γ e).Returns s T s')
    (i : UInt32) : e.skeleton ≠ .bvar i := by
  induction e generalizing n with
  | bvar j => exact absurd h not_inferType_bvar_returns
  | mdata m e ih =>
    rcases n with _ | n
    · exact absurd h not_inferType_zero_returns
    · exact ih (inferType_mdata_returns_iff.mp h)
  | _ => simp [Expr.skeleton]

end Pinpoint.Environment
