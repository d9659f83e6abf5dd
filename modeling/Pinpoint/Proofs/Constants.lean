/-
The constants of the prelude, applied.

In an environment that extends the prelude, each constant that proofs are
built from has the type that it promises, at arguments that have the types it
asks for; `ExtendsPrelude.gives_congrArg` is one of these.  Equations and
equivalences are also taken apart, and compared part by part.

* `reduces_mkApp_const` — a constant without a value does nothing with its
  arguments;
* `defEq_mkEq`, `defEq_mkIff` — relations with equal parts are equal by
  definition;
* `gives_operation`, `of_gives_operation` — operations put together and taken
  apart;
* `of_gives_mkEq`, `of_gives_iff` — the parts of a relation that has a type.
-/
import Pinpoint.Proofs.Mentions
import Pinpoint.Proofs.Prelude
import Pinpoint.Proofs.Spines

namespace Pinpoint

theorem Expr.appFn_mkApp (f : Expr) (args : List Expr) : (mkApp f args).appFn = f.appFn := by
  induction args generalizing f with
  | nil => rfl
  | cons a args ih => exact ih (.app f a)

/-! ### Types at given levels -/

namespace Prelude

/-- The type of equality in `Sort l`. -/
def eqType (l : Level) : Expr :=
  .pi .implicit (.sort l) (.pi .default (.bvar 0) (.pi .default (.bvar 1) .prop))

/-- The type of the constant of an operator that takes the type of its operands: an
equation is a proposition, a sum or a product is of the type of the operands. -/
def operationType (op : Operator) (l : Level) : Expr :=
  .pi .implicit (.sort l) (.pi .default (.bvar 0) (.pi .default (.bvar 1)
    (if op = .eq then .prop else .bvar 2)))

def eqReflType (l : Level) : Expr :=
  .pi .implicit (.sort l) (.pi .default (.bvar 0) (.mkEq l (.bvar 1) (.bvar 0) (.bvar 0)))

def eqSymmType (l : Level) : Expr :=
  .pi .implicit (.sort l) (.pi .implicit (.bvar 0) (.pi .implicit (.bvar 1)
    (.pi .default (.mkEq l (.bvar 2) (.bvar 1) (.bvar 0)) (.mkEq l (.bvar 3) (.bvar 1) (.bvar 2)))))

def eqMprType (l : Level) : Expr :=
  .pi .implicit (.sort l) (.pi .implicit (.sort l)
    (.pi .default (.mkEq (.succ l) (.sort l) (.bvar 1) (.bvar 0)) (.pi .default (.bvar 1) (.bvar 3))))

def eqMpType (l : Level) : Expr :=
  .pi .implicit (.sort l) (.pi .implicit (.sort l)
    (.pi .default (.mkEq (.succ l) (.sort l) (.bvar 1) (.bvar 0)) (.pi .default (.bvar 2) (.bvar 2))))

def congrArgType (l m : Level) : Expr :=
  .pi .implicit (.sort l) (.pi .implicit (.sort m) (.pi .implicit (.bvar 1) (.pi .implicit (.bvar 2)
    (.pi .default (.pi .default (.bvar 3) (.bvar 3))
      (.pi .default (.mkEq l (.bvar 4) (.bvar 2) (.bvar 1))
        (.mkEq m (.bvar 4) (.app (.bvar 1) (.bvar 3)) (.app (.bvar 1) (.bvar 2))))))))

/-- The type of equivalence. -/
def iffType : Expr := .pi .default .prop (.pi .default .prop .prop)

def iffReflType : Expr := .pi .default .prop (.mkIff (.bvar 0) (.bvar 0))

def iffSymmType : Expr :=
  .pi .implicit .prop (.pi .implicit .prop
    (.pi .default (.mkIff (.bvar 1) (.bvar 0)) (.mkIff (.bvar 1) (.bvar 2))))

def propextType : Expr :=
  .pi .implicit .prop (.pi .implicit .prop
    (.pi .default (.mkIff (.bvar 1) (.bvar 0)) (.mkEq .one .prop (.bvar 2) (.bvar 1))))

end Prelude

namespace Environment

open Pinpoint.Expr

variable {env : Environment} {Γ : LocalContext} {c : Name} {ls ls' : List Level} {l m : Level}
  {α β a b f g h T : Expr} {args : List Expr} {info : Constant}

/-! ### Constants without a value -/

theorem value?_eq_none (hinfo : env.find? c = some info) (h : info.value = none) :
    env.value? c ls = none := by
  cases hv : env.value? c ls with
  | none => rfl
  | some v =>
    obtain ⟨info', -, w, hinfo', -, hw, -⟩ := value?_eq_some hv
    obtain rfl := Option.some.inj (hinfo.symm.trans hinfo')
    rw [h] at hw
    cases hw

/-- A constant without a value does nothing with its arguments. -/
theorem reduces_mkApp_const (hv : env.value? c ls = none) (args : List Expr) :
    env.Reduces (Expr.mkApp (.const c ls) args) (Expr.mkApp (.const c ls) args) := by
  have hhead : env.whnf .all 1 (.const c ls) = some (.const c ls) := whnf_const_of_none hv
  rcases List.eq_nil_or_concat args with rfl | ⟨init, v, rfl⟩
  · exact ⟨1, hhead⟩
  · have hfn : (Expr.app (Expr.mkApp (.const c ls) init) v).appFn = .const c ls :=
      appFn_mkApp (.const c ls) init
    have hstuck : env.Stuck .all (.const c ls) := by
      refine ⟨fun _ _ _ => nofun, fun c' ls' heq => ?_⟩
      obtain ⟨rfl, rfl⟩ := Expr.const.inj heq
      exact hv
    rw [List.concat_eq_append, mkApp_append]
    exact ⟨2, whnf_app_of_stuck (by rw [hfn]; exact hhead) hstuck⟩

theorem DefEq.const (hv : env.value? c ls = none) (hv' : env.value? c ls' = none)
    (hls : ls.map Level.simplify = ls'.map Level.simplify) :
    env.DefEq (.const c ls) (.const c ls') :=
  ⟨2, isDefEq_succ_eq_true.mpr
    (.inr ⟨_, _, whnf_const_of_none hv, whnf_const_of_none hv', rfl, hls⟩)⟩

/-- Applications that do not reduce are compared part by part. -/
theorem DefEq.app (hf : env.Reduces (.app f a) (.app f a)) (hg : env.Reduces (.app g b) (.app g b))
    (hfg : env.DefEq f g) (hab : env.DefEq a b) : env.DefEq (.app f a) (.app g b) := by
  obtain ⟨n₁, hf⟩ := hf
  obtain ⟨n₂, hg⟩ := hg
  obtain ⟨n₃, hfg⟩ := hfg
  obtain ⟨n₄, hab⟩ := hab
  refine ⟨n₁ + n₂ + n₃ + n₄ + 1, isDefEq_succ_eq_true.mpr (.inr ⟨.app f a, .app g b, ?_, ?_, ?_⟩)⟩
  · exact whnf_mono (by omega) hf
  · exact whnf_mono (by omega) hg
  · exact ⟨isDefEq_mono (by omega) hfg, isDefEq_mono (by omega) hab⟩

/-! ### Constants with their arguments -/

namespace ExtendsPrelude

/-- A constant of the prelude has the type that the prelude gives it, with no arguments
put in yet. -/
theorem gives_prelude (henv : env.ExtendsPrelude) {c : Name} {X : Expr}
    (hX : (find? ⟨Prelude.constants⟩ c).map (·.instantiateType ls) = some (.ok X)) :
    env.Gives Γ (.const c ls) (X.instantiateRev []) := by
  obtain ⟨info, hinfo, hX⟩ := Option.map_eq_some_iff.mp hX
  rw [instantiateRev_nil]
  exact gives_const (henv.find?_eq hinfo) hX

/-- A constant of the prelude with as many arguments as it takes. -/
theorem gives_mkApp (henv : env.ExtendsPrelude) (c : Name) (ls : List Level) (X : Expr)
    (hX : (find? ⟨Prelude.constants⟩ c).map (·.instantiateType ls) = some (.ok X))
    (hargs : env.ArgsFit Γ [] X.telescope.1 args) (hnesting : ∀ v ∈ args, v.nesting < 2 ^ 31)
    (hXn : X.nesting < 2 ^ 31) :
    env.Gives Γ (Expr.mkApp (.const c ls) args) ((X.bodyUnder args.length).instantiateRev args) :=
  (henv.gives_prelude hX).mkApp hargs (List.forall_mem_nil _) hnesting (by simpa using hXn)

/-- The constant of an operator has the type that the prelude gives it. -/
theorem instantiateType_operation {op : Operator} (hop : op ≠ .iff) (l : Level) :
    (find? ⟨Prelude.constants⟩ op.constant).map (·.instantiateType [l]) =
      some (.ok (Prelude.operationType op l)) := by
  cases op with
  | iff => exact absurd rfl hop
  | _ => rfl

theorem length_telescope_operationType (op : Operator) (l : Level) :
    (Prelude.operationType op l).telescope.1.length = 3 := by
  cases op <;> rfl

theorem nesting_operationType_lt (op : Operator) (l : Level) :
    (Prelude.operationType op l).nesting < 2 ^ 31 := by
  cases op <;> simp [Prelude.operationType, nesting, prop]

theorem argsFit_operationType_iff {op : Operator} :
    env.ArgsFit Γ [] (Prelude.operationType op l).telescope.1 [α, a, b] ↔
      env.Checks Γ α (.sort l) ∧ env.Checks Γ a α ∧ env.Checks Γ b α := by
  cases op <;> simp [Prelude.operationType, telescope, ArgsFit, instantiateRev, mapVars, prop]

/-- Operands of one type can be put together. -/
theorem gives_operation (henv : env.ExtendsPrelude) {op : Operator} (hop : op ≠ .iff)
    (hα : env.Checks Γ α (.sort l)) (ha : env.Checks Γ a α) (hb : env.Checks Γ b α)
    (hnesting : ∀ v ∈ [α, a, b], v.nesting < 2 ^ 31) :
    env.Gives Γ (Expr.mkApp (.const op.constant [l]) [α, a, b])
      (if op = .eq then .prop else α) := by
  have hgives := henv.gives_mkApp op.constant [l] (Prelude.operationType op l)
    (instantiateType_operation hop l) (argsFit_operationType_iff.mpr ⟨hα, ha, hb⟩) hnesting
    (nesting_operationType_lt op l)
  cases op <;> simpa [Prelude.operationType, bodyUnder, Expr.stripMData, instantiateRev, mapVars,
    prop] using hgives

theorem gives_eqSymm (henv : env.ExtendsPrelude) (hα : env.Checks Γ α (.sort l))
    (ha : env.Checks Γ a α) (hb : env.Checks Γ b α) (hh : env.Checks Γ h (.mkEq l α a b))
    (hnesting : ∀ v ∈ [α, a, b, h], v.nesting < 2 ^ 31) :
    env.Gives Γ (Expr.mkApp (.const Vocabulary.eqSymm [l]) [α, a, b, h]) (.mkEq l α b a) := by
  have hargs : env.ArgsFit Γ [] (Prelude.eqSymmType l).telescope.1 [α, a, b, h] :=
    ⟨hα, by simpa [instantiateRev, mapVars] using ha, by simpa [instantiateRev, mapVars] using hb,
      by simpa [instantiateRev, mapVars, mkEq] using hh, trivial⟩
  have hgives := henv.gives_mkApp Vocabulary.eqSymm [l] (Prelude.eqSymmType l) (by rfl) hargs
    hnesting (by simp [Prelude.eqSymmType, nesting, mkEq])
  simpa [Prelude.eqSymmType, bodyUnder, Expr.stripMData, instantiateRev, mapVars, mkEq] using hgives

/-- The cast from a proof of the right side of an equation to one of the left
side. -/
theorem gives_eqMpr (henv : env.ExtendsPrelude) (ha : env.Checks Γ a (.sort l))
    (hb : env.Checks Γ b (.sort l)) (hh : env.Checks Γ h (.mkEq (.succ l) (.sort l) a b))
    (hf : env.Checks Γ f b) (hnesting : ∀ v ∈ [a, b, h, f], v.nesting < 2 ^ 31) :
    env.Gives Γ (Expr.mkApp (.const Vocabulary.eqMpr [l]) [a, b, h, f]) a := by
  have hargs : env.ArgsFit Γ [] (Prelude.eqMprType l).telescope.1 [a, b, h, f] :=
    ⟨ha, hb, by simpa [instantiateRev, mapVars, mkEq] using hh,
      by simpa [instantiateRev, mapVars] using hf, trivial⟩
  have hgives := henv.gives_mkApp Vocabulary.eqMpr [l] (Prelude.eqMprType l) (by rfl) hargs
    hnesting (by simp [Prelude.eqMprType, nesting, mkEq])
  simpa [Prelude.eqMprType, bodyUnder, Expr.stripMData, instantiateRev, mapVars] using hgives

/-- The cast from a proof of the left side of an equation to one of the right
side. -/
theorem gives_eqMp (henv : env.ExtendsPrelude) (ha : env.Checks Γ a (.sort l))
    (hb : env.Checks Γ b (.sort l)) (hh : env.Checks Γ h (.mkEq (.succ l) (.sort l) a b))
    (hf : env.Checks Γ f a) (hnesting : ∀ v ∈ [a, b, h, f], v.nesting < 2 ^ 31) :
    env.Gives Γ (Expr.mkApp (.const Vocabulary.eqMp [l]) [a, b, h, f]) b := by
  have hargs : env.ArgsFit Γ [] (Prelude.eqMpType l).telescope.1 [a, b, h, f] :=
    ⟨ha, hb, by simpa [instantiateRev, mapVars, mkEq] using hh,
      by simpa [instantiateRev, mapVars] using hf, trivial⟩
  have hgives := henv.gives_mkApp Vocabulary.eqMp [l] (Prelude.eqMpType l) (by rfl) hargs
    hnesting (by simp [Prelude.eqMpType, nesting, mkEq])
  simpa [Prelude.eqMpType, bodyUnder, Expr.stripMData, instantiateRev, mapVars] using hgives

theorem gives_congrArg (henv : env.ExtendsPrelude) (hα : env.Checks Γ α (.sort l))
    (hβ : env.Checks Γ β (.sort m)) (ha : env.Checks Γ a α) (hb : env.Checks Γ b α)
    (hf : env.Checks Γ f (.arrow α β)) (hh : env.Checks Γ h (.mkEq l α a b))
    (hnesting : ∀ v ∈ [α, β, a, b, f, h], v.nesting < 2 ^ 31) :
    env.Gives Γ (Expr.mkApp (.const Vocabulary.congrArg [l, m]) [α, β, a, b, f, h])
      (.mkEq m β (.app f a) (.app f b)) := by
  have hargs : env.ArgsFit Γ [] (Prelude.congrArgType l m).telescope.1 [α, β, a, b, f, h] :=
    ⟨hα, hβ, by simpa [instantiateRev, mapVars] using ha,
      by simpa [instantiateRev, mapVars] using hb,
      by simpa [instantiateRev, mapVars, arrow] using hf,
      by simpa [instantiateRev, mapVars, mkEq] using hh, trivial⟩
  have hgives := henv.gives_mkApp Vocabulary.congrArg [l, m] (Prelude.congrArgType l m) (by rfl)
    hargs hnesting (by simp [Prelude.congrArgType, nesting, mkEq])
  simpa [Prelude.congrArgType, bodyUnder, Expr.stripMData, instantiateRev, mapVars, mkEq]
    using hgives

theorem gives_iffSymm (henv : env.ExtendsPrelude) (ha : env.Checks Γ a .prop)
    (hb : env.Checks Γ b .prop) (hh : env.Checks Γ h (.mkIff a b))
    (hnesting : ∀ v ∈ [a, b, h], v.nesting < 2 ^ 31) :
    env.Gives Γ (Expr.mkApp (.const Vocabulary.iffSymm []) [a, b, h]) (.mkIff b a) := by
  have hargs : env.ArgsFit Γ [] Prelude.iffSymmType.telescope.1 [a, b, h] :=
    ⟨ha, hb, by simpa [instantiateRev, mapVars, mkIff] using hh, trivial⟩
  have hgives := henv.gives_mkApp Vocabulary.iffSymm [] Prelude.iffSymmType (by rfl) hargs
    hnesting (by decide)
  simpa [Prelude.iffSymmType, bodyUnder, Expr.stripMData, instantiateRev, mapVars, mkIff]
    using hgives

/-- Equivalent propositions are equal. -/
theorem gives_propext (henv : env.ExtendsPrelude) (ha : env.Checks Γ a .prop)
    (hb : env.Checks Γ b .prop) (hh : env.Checks Γ h (.mkIff a b))
    (hnesting : ∀ v ∈ [a, b, h], v.nesting < 2 ^ 31) :
    env.Gives Γ (Expr.mkApp (.const Vocabulary.propext []) [a, b, h]) (.mkEq .one .prop a b) := by
  have hargs : env.ArgsFit Γ [] Prelude.propextType.telescope.1 [a, b, h] :=
    ⟨ha, hb, by simpa [instantiateRev, mapVars, mkIff] using hh, trivial⟩
  have hgives := henv.gives_mkApp Vocabulary.propext [] Prelude.propextType (by rfl) hargs
    hnesting (by decide)
  simpa [Prelude.propextType, bodyUnder, Expr.stripMData, instantiateRev, mapVars, mkEq, prop]
    using hgives

/-! ### Relations taken apart -/

theorem value?_eq (henv : env.ExtendsPrelude) : env.value? Vocabulary.eq ls = none :=
  value?_eq_none (henv.find?_eq (n := Vocabulary.eq) (by rfl)) rfl

theorem value?_iff (henv : env.ExtendsPrelude) : env.value? Vocabulary.iff ls = none :=
  value?_eq_none (henv.find?_eq (n := Vocabulary.iff) (by rfl)) rfl

/-- Equations with equal parts are equal by definition. -/
theorem defEq_mkEq (henv : env.ExtendsPrelude) {a' b' : Expr} (hl : l.simplify = m.simplify)
    (hα : env.DefEq α β) (ha : env.DefEq a a') (hb : env.DefEq b b') :
    env.DefEq (.mkEq l α a b) (.mkEq m β a' b') := by
  have hred : ∀ (l : Level) (args : List Expr), env.Reduces (Expr.mkApp (.const Vocabulary.eq [l]) args)
      (Expr.mkApp (.const Vocabulary.eq [l]) args) :=
    fun l => reduces_mkApp_const henv.value?_eq
  have hconst : env.DefEq (.const Vocabulary.eq [l]) (.const Vocabulary.eq [m]) :=
    .const henv.value?_eq henv.value?_eq (by rw [List.map_singleton, List.map_singleton, hl])
  have h₁ := hconst.app (hred l [α]) (hred m [β]) hα
  have h₂ := h₁.app (hred l [α, a]) (hred m [β, a']) ha
  exact h₂.app (hred l [α, a, b]) (hred m [β, a', b']) hb

theorem defEq_mkIff (henv : env.ExtendsPrelude) {a' b' : Expr} (ha : env.DefEq a a')
    (hb : env.DefEq b b') : env.DefEq (.mkIff a b) (.mkIff a' b') := by
  have hred : ∀ (args : List Expr), env.Reduces (Expr.mkApp (.const Vocabulary.iff []) args)
      (Expr.mkApp (.const Vocabulary.iff []) args) :=
    reduces_mkApp_const henv.value?_iff
  have hconst : env.DefEq (.const Vocabulary.iff []) (.const Vocabulary.iff []) := .refl _
  exact (hconst.app (hred [a]) (hred [a']) ha).app (hred [a, b]) (hred [a', b']) hb

/-- A constant of the prelude takes only arguments that fit. -/
theorem argsFit (henv : env.ExtendsPrelude) (hfree : env.FVarFree)
    (hΓ : Γ.FVarsIn FVarId.IsOuter) (c : Name) (ls : List Level) (X : Expr)
    (hX : (find? ⟨Prelude.constants⟩ c).map (·.instantiateType ls) = some (.ok X))
    (hlimits : (Expr.mkApp (.const c ls) args).WithinLimits)
    (h : env.Gives Γ (Expr.mkApp (.const c ls) args) T)
    (hlen : X.telescope.1.length = args.length) (hXn : X.nesting < 2 ^ 31) :
    env.ArgsFit Γ [] X.telescope.1 args :=
  hfree.argsFit_of_gives hΓ hlimits h (henv.gives_prelude hX) hlen (List.forall_mem_nil _)
    (by simpa using hXn)

/-- An operation that has a type is one on operands of one type. -/
theorem of_gives_operation (henv : env.ExtendsPrelude) (hfree : env.FVarFree)
    (hΓ : Γ.FVarsIn FVarId.IsOuter) {op : Operator} (hop : op ≠ .iff)
    (hlimits : (Expr.mkApp (.const op.constant [l]) [α, a, b]).WithinLimits)
    (h : env.Gives Γ (Expr.mkApp (.const op.constant [l]) [α, a, b]) T) :
    env.Checks Γ α (.sort l) ∧ env.Checks Γ a α ∧ env.Checks Γ b α :=
  argsFit_operationType_iff.mp <| henv.argsFit hfree hΓ op.constant [l]
    (Prelude.operationType op l) (instantiateType_operation hop l) hlimits h
    (length_telescope_operationType op l) (nesting_operationType_lt op l)

/-- An equation that has a type is one between terms of one type. -/
theorem of_gives_mkEq (henv : env.ExtendsPrelude) (hfree : env.FVarFree)
    (hΓ : Γ.FVarsIn FVarId.IsOuter) (hlimits : (Expr.mkEq l α a b).WithinLimits)
    (h : env.Gives Γ (.mkEq l α a b) T) :
    env.Checks Γ α (.sort l) ∧ env.Checks Γ a α ∧ env.Checks Γ b α :=
  henv.of_gives_operation hfree hΓ (show Operator.eq ≠ .iff by decide) hlimits h

/-- The constant of equivalences has no universe parameters. -/
theorem levels_of_declares_iff (henv : env.ExtendsPrelude)
    (h : env.Declares Vocabulary.iff ls.length) : ls = [] := by
  obtain ⟨info, hinfo, hlen⟩ := h
  rw [henv.find?_eq (n := Vocabulary.iff) (by rfl)] at hinfo
  obtain rfl := Option.some.inj hinfo
  exact List.length_eq_zero_iff.mp hlen.symm

/-- An equivalence that has a type is written without universe arguments, and
is one between propositions. -/
theorem of_gives_iff (henv : env.ExtendsPrelude) (hfree : env.FVarFree)
    (hΓ : Γ.FVarsIn FVarId.IsOuter)
    (hlimits : (Expr.mkApp (.const Vocabulary.iff ls) [a, b]).WithinLimits)
    (h : env.Gives Γ (Expr.mkApp (.const Vocabulary.iff ls) [a, b]) T) :
    ls = [] ∧ env.Checks Γ a .prop ∧ env.Checks Γ b .prop := by
  obtain ⟨F, hF⟩ := hfree.gives_head hΓ hlimits h
  have hlim : (Expr.const Vocabulary.iff ls).WithinLimits :=
    (WithinLimits.mkApp (f := .const Vocabulary.iff ls) hlimits).1
  obtain ⟨n, hn⟩ := hF.eventually
  obtain rfl := henv.levels_of_declares_iff
    (constsIn_of_inferType (hn (n + 1) (by omega) _ UInt64.le_rfl (hlim.fits (n + 1))))
  obtain ⟨ha, hb, -⟩ := henv.argsFit hfree hΓ Vocabulary.iff [] Prelude.iffType (by rfl)
    hlimits h (by rfl) (by decide)
  exact ⟨rfl, ha, hb⟩

end ExtendsPrelude

end Environment

end Pinpoint
