/-
Reflexivity closes goals with proofs that the checker accepts.

The sides of a target are compared without unfolding constants, and the proof is
checked with it; that the one follows from the other is in
`Proofs.Transparency`.  The proof is made of parts of the target, which are
inferred in the order in which they stand in the target, so the checker draws
for each of them the variables that it drew for the target.

* `InfersFrom` — the type of a term, and the place in the supply at which its
  inference starts and ends;
* `ExtendsPrelude.infersFrom_reflProof` — the proof of a target by reflexivity;
* `ProofState.reflexivity_accepted` — what an attempt at reflexivity does to a
  proof state.
-/
import Pinpoint.Proofs.Replacement
import Pinpoint.Proofs.Runs
import Pinpoint.Proofs.Soundness
import Pinpoint.Proofs.Transparency

namespace Pinpoint

theorem Expr.Small.instantiate {e v : Expr} (h : e.Small) : e.instantiate v = e := by
  rw [instantiate_eq_mapVars]
  exact h.mapVars_inst (by decide)

namespace Environment

open Pinpoint.Expr

/-- Whether a checker whose next variable has the first number gives a term a
type, and has the second number next then. -/
def InfersFrom (env : Environment) (Γ : LocalContext) (s : UInt64) (e T : Expr) (s' : UInt64) :
    Prop :=
  ∃ n, (env.inferType n Γ e).Returns s T s'

variable {env : Environment} {Γ : LocalContext} {s s' t : UInt64} {α a b e f A B F T : Expr}
  {l : Level} {ls : List Level}

theorem InfersFrom.stripMData (h : env.InfersFrom Γ s e T s') :
    env.InfersFrom Γ s e.stripMData T s' := by
  induction e with
  | mdata m e ih =>
    obtain ⟨_ | n, h⟩ := h
    · exact absurd h not_inferType_zero_returns
    · exact ih ⟨n, inferType_mdata_returns_iff.mp h⟩
  | _ => exact h

/-- A term that has a type is well scoped. -/
theorem InfersFrom.small (h : env.InfersFrom Γ s e T s') (hnesting : e.nesting < 2 ^ 31) :
    e.Small := by
  obtain ⟨n, h⟩ := h
  exact ⟨scoped_of_inferType h, hnesting⟩

/-- A term has at most one type, and one place at which its inference ends. -/
theorem InfersFrom.det {T' : Expr} (h : env.InfersFrom Γ s e T s')
    (h' : env.InfersFrom Γ s e T' t) : T = T' ∧ s' = t := by
  obtain ⟨n, h⟩ := h
  obtain ⟨m, h'⟩ := h'
  have hr := (inferType_le (Nat.le_max_left n m) Γ e).returns h
  have hr' := (inferType_le (Nat.le_max_right n m) Γ e).returns h'
  have heq := hr.symm.trans hr'
  simpa using heq

/-- A constant has the type that it is declared with. -/
theorem infersFrom_const_iff {c : Name} : env.InfersFrom Γ s (.const c ls) T s' ↔
    (∃ info, env.find? c = some info ∧ info.instantiateType ls = .ok T) ∧ s = s' := by
  constructor
  · rintro ⟨_ | n, h⟩
    · exact absurd h not_inferType_zero_returns
    · exact inferType_const_returns_iff.mp h
  · exact fun h => ⟨1, inferType_const_returns_iff.mpr h⟩

/-- An application has a type exactly if the argument fits the function. -/
theorem infersFrom_app_iff : env.InfersFrom Γ s (.app f a) T s' ↔
    ∃ F A info dom body t, env.InfersFrom Γ s f F t ∧ env.Reduces F (.pi info dom body) ∧
      env.InfersFrom Γ t a A s' ∧ env.DefEq A dom ∧ body.instantiate a = T := by
  constructor
  · rintro ⟨_ | n, h⟩
    · exact absurd h not_inferType_zero_returns
    · obtain ⟨F, A, info, dom, body, t, hF, hpi, hA, hdom, hT⟩ := inferType_app_returns_iff.mp h
      exact ⟨F, A, info, dom, body, t, ⟨n, hF⟩, ⟨n, hpi⟩, ⟨n, hA⟩, ⟨n, hdom⟩, hT⟩
  · rintro ⟨F, A, info, dom, body, t, ⟨n₁, hF⟩, ⟨n₂, hpi⟩, ⟨n₃, hA⟩, ⟨n₄, hdom⟩, hT⟩
    refine ⟨n₁ + n₂ + n₃ + n₄ + 1, inferType_app_returns_iff.mpr ⟨F, A, info, dom, body, t, ?_,
      whnf_mono (by omega) hpi, ?_, isDefEq_mono (by omega) hdom, hT⟩⟩
    · exact (inferType_le (by omega) Γ f).returns hF
    · exact (inferType_le (by omega) Γ a).returns hA

theorem InfersFrom.app {info : BinderInfo} {dom body : Expr} (hf : env.InfersFrom Γ s f F t)
    (hF : env.Reduces F (.pi info dom body)) (ha : env.InfersFrom Γ t a A s')
    (hA : env.DefEq A dom) : env.InfersFrom Γ s (.app f a) (body.instantiate a) s' :=
  infersFrom_app_iff.mpr ⟨F, A, info, dom, body, t, hf, hF, ha, hA, rfl⟩

/-- A function that is applied to arguments has a type itself. -/
theorem InfersFrom.of_mkApp {args : List Expr} (h : env.InfersFrom Γ s (mkApp f args) T s') :
    ∃ F t, env.InfersFrom Γ s f F t := by
  induction args generalizing f with
  | nil => exact ⟨T, s', h⟩
  | cons a args ih =>
    obtain ⟨_, _, happ⟩ := ih h
    obtain ⟨F, -, -, -, -, t, hF, -⟩ := infersFrom_app_iff.mp happ
    exact ⟨F, t, hF⟩

theorem Reduces.pi_inj {info info' : BinderInfo} {dom dom' body body' : Expr}
    (h : env.Reduces (.pi info dom body) (.pi info' dom' body')) : dom = dom' ∧ body = body' := by
  obtain ⟨n, h⟩ := h
  obtain ⟨m, h'⟩ : env.Reduces (.pi info dom body) (.pi info dom body) := reduces_pi info dom body
  exact (Expr.pi.inj (whnf_det h' h)).2

/-! ### Relations and their proofs by reflexivity -/

namespace ExtendsPrelude

theorem infersFrom_const (henv : env.ExtendsPrelude) {c : Name} {X : Expr}
    (hX : (find? ⟨Prelude.constants⟩ c).map (·.instantiateType ls) = some (.ok X)) :
    env.InfersFrom Γ s (.const c ls) X s := by
  obtain ⟨info, hinfo, hX⟩ := Option.map_eq_some_iff.mp hX
  exact infersFrom_const_iff.mpr ⟨⟨info, henv.find?_eq hinfo, hX⟩, rfl⟩

/-- A constant of the prelude that has a type has the one that it is declared
with. -/
theorem eq_of_infersFrom_const (henv : env.ExtendsPrelude) {c : Name} {X : Expr}
    (hX : (find? ⟨Prelude.constants⟩ c).map (·.instantiateType ls) = some (.ok X))
    (h : env.InfersFrom Γ s (.const c ls) T s') : T = X ∧ s = s' := by
  obtain ⟨info, hinfo, hX⟩ := Option.map_eq_some_iff.mp hX
  obtain ⟨⟨info', hinfo', hT⟩, rfl⟩ := infersFrom_const_iff.mp h
  rw [henv.find?_eq hinfo] at hinfo'
  obtain rfl := Option.some.inj hinfo'
  exact ⟨Except.ok.inj (hT.symm.trans hX), rfl⟩

/-- The carrier and the left side of an equation that has a type. -/
theorem of_infersFrom_mkEq (henv : env.ExtendsPrelude)
    (h : env.InfersFrom Γ s (.mkEq l α a b) T s') :
    ∃ A B t t', env.InfersFrom Γ s α A t ∧ env.DefEq A (.sort l) ∧
      env.InfersFrom Γ t a B t' ∧ env.DefEq B α := by
  obtain ⟨_, -, _, _, _, t', h₂, -, -, -, -⟩ := infersFrom_app_iff.mp h
  obtain ⟨_, B, _, dom, _, t, h₁, hpi, ha, hdom, -⟩ := infersFrom_app_iff.mp h₂
  obtain ⟨_, A, _, _, _, _, h₀, hpi', hα, hdom', rfl⟩ := infersFrom_app_iff.mp h₁
  obtain ⟨rfl, rfl⟩ := henv.eq_of_infersFrom_const (X := Prelude.eqType l) (by rfl) h₀
  obtain ⟨rfl, rfl⟩ := Reduces.pi_inj hpi'
  have hdomain : α.lift 0 = dom := (Reduces.pi_inj hpi).1
  rw [lift_zero] at hdomain
  exact ⟨A, B, t, t', hα, hdom', ha, hdomain ▸ hdom⟩

/-- The proof that a term is equal to itself. -/
theorem infersFrom_eqRefl (henv : env.ExtendsPrelude) (hα : env.InfersFrom Γ s α A t)
    (hA : env.DefEq A (.sort l)) (ha : env.InfersFrom Γ t a B s') (hB : env.DefEq B α)
    (hsmall : α.Small) :
    env.InfersFrom Γ s (Expr.mkApp (.const Vocabulary.eqRefl [l]) [α, a]) (.mkEq l α a a) s' := by
  have hconst : env.InfersFrom Γ s (.const Vocabulary.eqRefl [l]) (Prelude.eqReflType l) s :=
    henv.infersFrom_const (by rfl)
  have happ := hconst.app (reduces_pi _ _ _) hα hA
  have hrest : Expr.instantiate (.pi .default (.bvar 0) (.mkEq l (.bvar 1) (.bvar 0) (.bvar 0))) α =
      .pi .default α (.mkEq l α (.bvar 0) (.bvar 0)) := by
    show Expr.pi .default (α.lift 0) (.mkEq l (α.lift 1) (.bvar 0) (.bvar 0)) = _
    rw [lift_zero, hsmall.lift]
  rw [hrest] at happ
  have hinst : Expr.instantiate (.mkEq l α (.bvar 0) (.bvar 0)) a = .mkEq l α a a := by
    show Expr.mkEq l (α.instantiate a) (a.lift 0) (a.lift 0) = _
    rw [lift_zero, hsmall.instantiate]
  exact hinst ▸ happ.app (reduces_pi _ _ _) ha hB

/-- The left side of an equivalence that has a type, which is written without
universe arguments. -/
theorem of_infersFrom_iff (henv : env.ExtendsPrelude)
    (h : env.InfersFrom Γ s (Expr.mkApp (.const Vocabulary.iff ls) [a, b]) T s') :
    ls = [] ∧ ∃ A t, env.InfersFrom Γ s a A t ∧ env.DefEq A .prop := by
  obtain ⟨_, -, _, _, _, t, h₁, -, -, -, -⟩ := infersFrom_app_iff.mp h
  obtain ⟨_, A, _, _, _, _, h₀, hpi, ha, hdom, -⟩ := infersFrom_app_iff.mp h₁
  obtain ⟨n, hn⟩ := h₀
  obtain rfl := henv.levels_of_declares_iff (constsIn_of_inferType hn)
  obtain ⟨rfl, rfl⟩ := henv.eq_of_infersFrom_const (X := Prelude.iffType) (by rfl) ⟨n, hn⟩
  obtain ⟨rfl, -⟩ := Reduces.pi_inj hpi
  exact ⟨rfl, A, t, ha, hdom⟩

/-- The proof that a proposition is equivalent to itself. -/
theorem infersFrom_iffRefl (henv : env.ExtendsPrelude) (ha : env.InfersFrom Γ s a A s')
    (hA : env.DefEq A .prop) :
    env.InfersFrom Γ s (Expr.mkApp (.const Vocabulary.iffRefl []) [a]) (.mkIff a a) s' := by
  have hconst : env.InfersFrom Γ s (.const Vocabulary.iffRefl []) Prelude.iffReflType s :=
    henv.infersFrom_const (by rfl)
  have hinst : Expr.instantiate (.mkIff (.bvar 0) (.bvar 0)) a = .mkIff a a := by
    show Expr.mkIff (a.lift 0) (a.lift 0) = _
    rw [lift_zero]
  exact hinst ▸ hconst.app (reduces_pi _ _ _) ha hA

/-- The proof by reflexivity of a target that has a type states that the left
side is related to itself, and that is equal by definition to the target, if the
sides are. -/
theorem infersFrom_reflProof (henv : env.ExtendsPrelude) {target : Expr} {S : Statement}
    {refl : Constant} (hS : target.statement? = some S) (h : env.InfersFrom Γ s target T s')
    (hnesting : target.nesting < 2 ^ 31) (hsides : env.DefEq S.lhs S.rhs)
    (hrefl : env.find? S.relation.reflName = some refl) :
    (∃ t, env.InfersFrom Γ s (S.reflProof refl) (S.rebuild S.lhs S.lhs) t) ∧
      env.DefEq (S.rebuild S.lhs S.lhs) target := by
  have h := h.stripMData
  rcases Expr.statement?_eq_some hS with ⟨hrel, htarget⟩ | ⟨hrel, -, -, ls, htarget⟩
  · refine ⟨?_, henv.defEq_rebuild_lhs htarget hsides⟩
    rw [Statement.toExpr, Statement.rebuild, hrel] at htarget
    rw [htarget] at h
    obtain ⟨A, B, t, t', hα, hA, ha, hB⟩ := henv.of_infersFrom_mkEq h
    -- the carrier has a type, so the binders of `Eq.refl` do not capture it
    have hsmall : S.carrier.Small := by
      refine hα.small ?_
      rw [← nesting_stripMData, htarget] at hnesting
      simp only [mkEq, mkApp_cons, mkApp_nil, nesting] at hnesting
      omega
    rw [Statement.rebuild, hrel, henv.reflProof_of_eq hrel hrefl]
    exact ⟨t', henv.infersFrom_eqRefl hα hA ha hB hsmall⟩
  · rw [htarget] at h
    obtain ⟨rfl, A, t, ha, hA⟩ := henv.of_infersFrom_iff h
    have htoExpr : S.toExpr = .mkIff S.lhs S.rhs := by rw [Statement.toExpr, Statement.rebuild, hrel]
    refine ⟨?_, henv.defEq_rebuild_lhs (htarget.trans htoExpr.symm) hsides⟩
    rw [Statement.rebuild, hrel, Statement.reflProof, hrel]
    exact ⟨t, henv.infersFrom_iffRefl ha hA⟩

end ExtendsPrelude

end Environment

/-! ### Proof states -/

namespace ProofState

variable {st : ProofState} {g : Goal} {target T : Expr}

/-- The proof of a target by reflexivity has a type in the goal, which is equal
by definition to the target. -/
theorem inferType_reflProof (henv : st.env.ExtendsPrelude)
    (htarget : st.metas.instantiate? g.target = some target) {n : Nat}
    (hT : st.inferType n g g.target = some (.ok T)) (hnesting : target.nesting < 2 ^ 31)
    {s : Statement} (hs : target.statement? = some s) (hsides : st.env.DefEq s.lhs s.rhs)
    {refl : Constant} (hrefl : st.env.find? s.relation.reflName = some refl) :
    ∃ m T', st.inferType m g (s.reflProof refl) = some (.ok T') ∧ st.env.DefEq T' target := by
  obtain ⟨Γ, target', T₀, t, hΓ, htarget', hT, -⟩ := inferType_eq_ok hT
  obtain rfl := Option.some.inj (htarget.symm.trans htarget')
  obtain ⟨⟨t', hproof⟩, hdef⟩ := henv.infersFrom_reflProof hs ⟨n, hT⟩ hnesting hsides hrefl
  obtain ⟨m, hm⟩ := hproof
  -- no part of the target has a hole, so there is none to fill on the way
  have hP := Expr.fvarsIn_hereditary fun x => st.metas.valueOf? x = none
  have hfilled := MetaContext.fvarsIn_instantiate? htarget
  obtain ⟨hc, hl, hr⟩ := hP.statement? (n := 0) hfilled hs
  exact ⟨m, s.rebuild s.lhs s.lhs, inferType_of_returns hΓ (hP.reflProof (n := 0) hfilled hs refl)
    (hP.withSide (n := 0) hc hl hr hl .rhs) hm, hdef⟩

/-- Reflexivity closes a goal that has a type, where the comparison of the sides
ends, with a proof of it that the checker accepts; where it fails, the proof
state stays as it was. -/
theorem reflexivity_accepted (henv : st.env.ExtendsPrelude) (hg : st.currentGoal? = some g)
    (htarget : st.metas.instantiate? g.target = some target) {n : Nat}
    (hT : st.inferType n g g.target = some (.ok T)) (hnesting : target.nesting < 2 ^ 31)
    (hends : ∀ s, target.statement? = some s → ∀ t, st.env.EndsWithin t s.lhs s.rhs)
    (fuel : Nat) :
    (∀ st', (st.rfl fuel).run = some (.ok st') →
      ∃ proof, st' = st.close g proof ∧
        ((st.metas.get? g.metaId).isSome → st'.metas.value? g.metaId = some proof) ∧
        ∃ m T', st.inferType m g proof = some (.ok T') ∧ st.env.DefEq T' target) ∧
    ∀ e, (st.rfl fuel).run = some (.error e) →
      (tryReflexivity fuel).answer st = some (.ok (), st) := by
  constructor
  · intro st' h
    obtain ⟨g', target', s, refl, hg', htarget', hs, hrefl, hsides, rfl⟩ := rfl_eq_ok h
    obtain rfl := Option.some.inj (hg.symm.trans hg')
    obtain rfl := Option.some.inj (htarget.symm.trans htarget')
    have hP := Expr.fvarsIn_hereditary fun x => st.metas.valueOf? x = none
    obtain ⟨-, hl, hr⟩ := hP.statement? (n := 0) (MetaContext.fvarsIn_instantiate? htarget) hs
    -- the sides are compared with their holes filled, and have none
    have hequal : st.env.Decides .reducible s.lhs s.rhs true := by
      obtain ⟨a, ha, hsides⟩ := Option.bind_eq_some_iff.mp hsides
      obtain ⟨b, hb, hsides⟩ := Option.bind_eq_some_iff.mp hsides
      obtain rfl := Option.some.inj (ha.symm.trans (MetaContext.instantiateUpTo_eq_self hl))
      obtain rfl := Option.some.inj (hb.symm.trans (MetaContext.instantiateUpTo_eq_self hr))
      exact ⟨fuel, hsides⟩
    have hdef := henv.checked.closed.decides_all_of_reducible hequal (hends s hs .reducible)
      (hends s hs .all)
    refine ⟨s.reflProof refl, Eq.refl _, fun hw => ?_,
      inferType_reflProof henv htarget hT hnesting hs hdef hrefl⟩
    obtain ⟨w, hw⟩ := Option.isSome_iff_exists.mp hw
    exact MetaContext.value?_assign_self hw _
  · intro e h
    rw [answer_tryReflexivity, h]
    exact Eq.refl _

/-- The value of the identity is its argument. -/
theorem reflexivity_accepted_identity :
    let nat : Expr := .const Vocabulary.nat []
    let zero : Expr := .const Vocabulary.natZero []
    let applied : Expr := .app (.lam .default nat (.bvar 0)) zero
    let target : Expr := .mkEq .one nat applied zero
    let st := start ⟨Prelude.constants⟩ target []
    ∃ st' proof, (st.rfl 5).run = some (.ok st') ∧ st'.metas.value? ⟨0⟩ = some proof ∧
      proof = Expr.mkApp (.const Vocabulary.eqRefl [.one]) [nat, applied] ∧
      ∃ m T', st.inferType m ⟨⟨0⟩, target, []⟩ proof = some (.ok T') ∧ st.env.DefEq T' target := by
  intro nat zero applied target st
  have hrun : ∃ st', (st.rfl 5).run = some (.ok st') ∧ st'.metas.value? ⟨0⟩ =
      some (Expr.mkApp (.const Vocabulary.eqRefl [.one]) [nat, applied]) :=
    ⟨_, by rfl, by rfl⟩
  have hends : ∀ s, target.statement? = some s → ∀ t, st.env.EndsWithin t s.lhs s.rhs := by
    intro s hs t
    obtain rfl := Option.some.inj hs
    exact ⟨5, true, by cases t <;> decide +kernel, by cases t <;> decide +kernel⟩
  obtain ⟨st', hst', hvalue⟩ := hrun
  obtain ⟨proof, -, hproof, haccepted⟩ := (reflexivity_accepted (n := 10)
    Environment.extendsPrelude_prelude (Eq.refl _) (Eq.refl _) (Eq.refl _) (by decide)
    hends 5).1 st' hst'
  obtain rfl := Option.some.inj ((hproof (Eq.refl _)).symm.trans hvalue)
  exact ⟨st', _, hst', hvalue, Eq.refl _, haccepted⟩

end ProofState

end Pinpoint
