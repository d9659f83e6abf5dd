/-
The proofs that are built are accepted.

* `Environment.Proves` — the checker accepts the proof of an equation at the
  equation;
* `checks_equationAt` — an instance of a rule, turned from pattern to
  replacement, from a proof of what the rule states;
* `Proves.congruence` — an equation lifted through a function;
* `Proves.castGoal`, `Proves.castHyp` — the casts along an equation between
  propositions;
* `acceptsBuilt` — all of these, for a checker that has drawn nothing yet.
-/
import Pinpoint.Proofs.Constants
import Pinpoint.Proofs.Statements
import Pinpoint.Proofs.Equations
import Pinpoint.Rewrite.Reflexivity

namespace Pinpoint

namespace Environment

open Pinpoint.Expr

variable {env : Environment} {Γ : LocalContext} {e e' f a b T type : Expr} {l m : Level}
  {eq eq' : Equation}

/-! ### Universes and metadata -/

theorem defEq_sort (h : l.simplify = m.simplify) : env.DefEq (.sort l) (.sort m) :=
  ⟨2, isDefEq_succ_eq_true.mpr (.inr ⟨.sort l, .sort m, rfl, rfl, h⟩)⟩

theorem DefEq.simplify_eq (h : env.DefEq (.sort l) (.sort m)) : l.simplify = m.simplify := by
  obtain ⟨n, h⟩ := h
  rcases n with _ | n
  · cases h
  · rcases isDefEq_succ_eq_true.mp h with heq | ⟨a, b, ha, hb, h⟩
    · rw [Expr.sort.inj heq]
    · rcases n with _ | n
      · cases ha
      · obtain rfl := Option.some.inj ha
        obtain rfl := Option.some.inj hb
        exact h

theorem Gives.sort_eq (h : env.Gives Γ (.sort l) T) : T = .sort (.succ l) := by
  obtain ⟨n, h⟩ := h.eventually
  have hret := h (n + 1) (Nat.le_add_right n 1) _ UInt64.le_rfl
    (show Checker.firstFresh.toNat + 0 < 2 ^ 64 by decide)
  exact (inferType_sort_returns_iff.mp hret).1.symm

theorem Gives.of_mdata {d : List (Name × MDataValue)} (h : env.Gives Γ (.mdata d e) T) :
    env.Gives Γ e T := by
  obtain ⟨n, hn⟩ := h.eventually
  refine ⟨h.closed, n, fun s hs hroom => ?_⟩
  have hret := hn (n + 1) (Nat.le_add_right n 1) s hs hroom
  exact inferType_mdata_returns_iff.mp hret

theorem Gives.stripMData (h : env.Gives Γ e T) : env.Gives Γ e.stripMData T := by
  induction e with
  | mdata d e ih => exact ih h.of_mdata
  | _ => exact h

/-! ### Equations that are proved -/

/-- Whether the checker accepts the proof of an equation, and takes the
equation for a proposition. -/
structure Proves (env : Environment) (Γ : LocalContext) (eq : Equation) : Prop where
  proof : env.Checks Γ eq.proof eq.statement
  prop : env.Checks Γ eq.statement .prop

/-- The parts of an equation have the types that they should have. -/
theorem Proves.parts (henv : env.ExtendsPrelude) (hfree : env.FVarFree)
    (hΓ : Γ.FVarsIn FVarId.IsOuter) (hlimits : eq.statement.WithinLimits)
    (h : env.Proves Γ eq) : env.Checks Γ eq.carrier (.sort eq.level) ∧
      env.Checks Γ eq.lhs eq.carrier ∧ env.Checks Γ eq.rhs eq.carrier := by
  obtain ⟨P, hP, -⟩ := h.prop
  exact henv.of_gives_mkEq hfree hΓ hlimits hP

/-- An equation in the universe of propositions, however that is written, is
one between propositions. -/
theorem Proves.of_isProp (henv : env.ExtendsPrelude) (hfree : env.FVarFree)
    (hΓ : Γ.FVarsIn FVarId.IsOuter) (hlimits : eq.statement.WithinLimits)
    (h : env.Proves Γ eq) (hprop : eq.carrier.isProp) :
    env.Checks Γ eq.lhs .prop ∧ env.Checks Γ eq.rhs .prop ∧
      env.Checks Γ eq.proof (.mkEq .one .prop eq.lhs eq.rhs) := by
  obtain ⟨hcarrier, hlhs, hrhs⟩ := h.parts henv hfree hΓ hlimits
  obtain ⟨l, hl, hzero⟩ : ∃ l, eq.carrier = .sort l ∧ l.simplify = .zero := by
    cases hc : eq.carrier with
    | sort l =>
      rw [hc, isProp] at hprop
      refine ⟨l, rfl, ?_⟩
      cases hs : l.simplify <;> rw [hs] at hprop <;> first | rfl | cases hprop
    | _ => rw [hc] at hprop; cases hprop
  have hdef : env.DefEq eq.carrier .prop := by
    rw [hl]
    exact defEq_sort hzero
  have hlevel : eq.level.simplify = Level.one.simplify := by
    rw [hl] at hcarrier
    obtain ⟨T, hT, hdefT⟩ := hcarrier
    obtain rfl := hT.sort_eq
    have hsucc : eq.level.simplify = .succ l.simplify := hdefT.simplify_eq.symm
    rw [hsucc, hzero]
    rfl
  exact ⟨hlhs.trans hdef, hrhs.trans hdef,
    h.proof.trans (henv.defEq_mkEq hlevel hdef (.refl _) (.refl _))⟩

/-- The cast of a proof of the right side proves the left side. -/
theorem Proves.castGoal (henv : env.ExtendsPrelude) (hfree : env.FVarFree)
    (hΓ : Γ.FVarsIn FVarId.IsOuter) (hlimits : eq.statement.WithinLimits)
    (h : env.Proves Γ eq) (hprop : eq.carrier.isProp) {new : Expr}
    (hnew : env.Checks Γ new eq.rhs)
    (hnesting : ∀ v ∈ [eq.lhs, eq.rhs, eq.proof, new], v.nesting < 2 ^ 31) :
    env.Gives Γ (Expr.mkApp (.const Vocabulary.eqMpr [.zero]) [eq.lhs, eq.rhs, eq.proof, new])
      eq.lhs := by
  obtain ⟨hlhs, hrhs, hproof⟩ := h.of_isProp henv hfree hΓ hlimits hprop
  exact henv.gives_eqMpr hlhs hrhs hproof hnew hnesting

/-- The cast of a proof of the left side proves the right side. -/
theorem Proves.castHyp (henv : env.ExtendsPrelude) (hfree : env.FVarFree)
    (hΓ : Γ.FVarsIn FVarId.IsOuter) (hlimits : eq.statement.WithinLimits)
    (h : env.Proves Γ eq) (hprop : eq.carrier.isProp) {old : Expr}
    (hold : env.Checks Γ old eq.lhs)
    (hnesting : ∀ v ∈ [eq.lhs, eq.rhs, eq.proof, old], v.nesting < 2 ^ 31) :
    env.Gives Γ (Expr.mkApp (.const Vocabulary.eqMp [.zero]) [eq.lhs, eq.rhs, eq.proof, old])
      eq.rhs := by
  obtain ⟨hlhs, hrhs, hproof⟩ := h.of_isProp henv hfree hΓ hlimits hprop
  exact henv.gives_eqMp hlhs hrhs hproof hold hnesting

/-- A function that is applied reduces as its body does at the argument. -/
theorem Reduces.beta {info : BinderInfo} {dom body : Expr} (hf : f.stripMData = .lam info dom body)
    (h : env.Reduces (body.instantiate a) e') : env.Reduces (.app f a) e' := by
  have hred : env.Reduces f (.lam info dom body) := by
    refine Reduces.of_stripMData ?_
    rw [hf]
    exact ⟨1, rfl⟩
  have hspine : (Expr.app f a).appFn = f ∧ (Expr.app f a).appArgs = [a] := by
    cases f with
    | app g b => cases hf
    | _ => exact ⟨rfl, rfl⟩
  obtain ⟨n, hred⟩ := hred
  obtain ⟨k, h⟩ := h
  refine ⟨max n k + 1, ?_⟩
  rw [whnf_app_of_lam (hspine.1.symm ▸ whnf_mono (Nat.le_max_left n k) hred) hspine.2]
  exact whnf_mono (Nat.le_max_right n k) h

/-- An equation lifted through a function is proved. -/
theorem Proves.congruence (henv : env.ExtendsPrelude) (hfree : env.FVarFree)
    (hΓ : Γ.FVarsIn FVarId.IsOuter) (hlimits : eq.statement.WithinLimits)
    (h : env.Proves Γ eq) {motive codomain : Expr}
    (heq' : eq.congruence env motive codomain l = .ok eq')
    (hcodomain : env.Checks Γ codomain (.sort l))
    (hmotive : env.Checks Γ motive (.arrow eq.carrier codomain))
    (hlhs : env.Reduces eq'.lhs a) (hrhs : env.Reduces eq'.rhs b)
    (hlimits' : eq'.proof.WithinLimits) : env.Checks Γ eq'.proof eq'.statement := by
  obtain ⟨info, dom, body, hlam, rfl⟩ := Equation.congruence_eq_ok heq'
  obtain ⟨hcarrier, ha, hb⟩ := h.parts henv hfree hΓ hlimits
  have hgives := henv.gives_congrArg hcarrier hcodomain ha hb hmotive h.proof
    fun v hv => (hlimits'.mkApp.2 v hv).nesting
  refine ⟨_, hgives, henv.defEq_mkEq rfl (.refl codomain) ?_ ?_⟩
  · exact .of_reduces (hlhs.beta hlam) hlhs
  · exact .of_reduces (hrhs.beta hlam) hrhs

/-! ### Instances of rules -/

theorem ExtendsPrelude.constant_eq_ok (henv : env.ExtendsPrelude) {n : Name}
    (h : (find? ⟨Prelude.constants⟩ n).isSome) (ls : List Level) :
    env.constant n ls = .ok (.const n ls) := by
  obtain ⟨c, hc⟩ := Option.isSome_iff_exists.mp h
  have hcontains : env.contains n := by
    rw [contains, henv.find?_eq hc]
    rfl
  exact if_pos hcontains

/-- With the prelude, a rule has an instance at any values of its
variables. -/
theorem ExtendsPrelude.instantiate_eq_ok (henv : env.ExtendsPrelude) (r : Rule)
    (vals : List Expr) : r.instantiate env (vals.map some) = .ok (r.equationAt vals) := by
  unfold Rule.instantiate Rule.equationAt
  rw [allDetermined_eq_ok_iff.mpr rfl]
  cases r.statement.relation <;> cases r.reversed <;>
    simp only [bind, Except.bind, pure, Except.pure,
      henv.constant_eq_ok (n := Vocabulary.eqSymm) (by rfl),
      henv.constant_eq_ok (n := Vocabulary.propext) (by rfl),
      henv.constant_eq_ok (n := Vocabulary.iffSymm) (by rfl)]

/-- An application of a quantified proof has, up to metadata, the type that is
quantified, at the arguments. -/
theorem FVarFree.gives_mkApp_telescope (hfree : env.FVarFree) (hΓ : Γ.FVarsIn FVarId.IsOuter)
    {proof : Expr} {vals : List Expr} (hproof : env.Gives Γ proof type)
    (hlen : type.telescope.1.length = vals.length) (h : env.Gives Γ (Expr.mkApp proof vals) T)
    (hlimits : (Expr.mkApp proof vals).WithinLimits) (htype : type.nesting < 2 ^ 31) :
    T.stripMData = (type.telescope.2.instantiateRev vals).stripMData := by
  have hproof' : env.Gives Γ proof (type.instantiateRev []) := by rwa [instantiateRev_nil]
  have hfit := hfree.argsFit_of_gives hΓ hlimits h hproof' hlen (List.forall_mem_nil _)
    (by simpa using htype)
  obtain ⟨T', hT', hstrip⟩ := hproof.mkApp_telescope hfit hlen
    (fun v hv => (hlimits.mkApp.2 v hv).nesting) htype
  obtain rfl := h.det hT' hlimits.fits
  exact hstrip

/-- A term whose type is, up to metadata, stuck has that type. -/
theorem Gives.checks_of_stripMData (h : env.Gives Γ e T) (hT : T.stripMData = type)
    (htype : env.Reduces type type) : env.Checks Γ e type :=
  ⟨T, h, .of_reduces (.of_stripMData (hT.symm ▸ htype)) htype⟩

section
variable {r : Rule} {vals : List Expr}

/-- The proof of an instance holds the proof of the rule at the values. -/
theorem withinLimits_mkApp (h : (r.equationAt vals).proof.WithinLimits) :
    (Expr.mkApp r.proof vals).WithinLimits := by
  unfold Rule.equationAt at h
  split at h
  · exact h
  · exact h.mkApp.2 _ (by simp)
  · exact h.mkApp.2 _ (by simp)
  · have hflip := h.mkApp.2 (Expr.mkApp (.const Vocabulary.iffSymm [])
      [r.statement.lhs.instantiateRev vals, r.statement.rhs.instantiateRev vals,
        Expr.mkApp r.proof vals]) (by simp)
    exact hflip.mkApp.2 _ (by simp)

/-- An instance of an equation, turned round if the rule is. -/
theorem ExtendsPrelude.checks_equationAt_eq (henv : env.ExtendsPrelude)
    (hrel : r.statement.relation = .eq)
    (hα : env.Checks Γ (r.statement.carrier.instantiateRev vals) (.sort r.statement.level))
    (ha : env.Checks Γ (r.statement.lhs.instantiateRev vals)
      (r.statement.carrier.instantiateRev vals))
    (hb : env.Checks Γ (r.statement.rhs.instantiateRev vals)
      (r.statement.carrier.instantiateRev vals))
    (hproof : env.Checks Γ (Expr.mkApp r.proof vals)
      (.mkEq r.statement.level (r.statement.carrier.instantiateRev vals)
        (r.statement.lhs.instantiateRev vals) (r.statement.rhs.instantiateRev vals)))
    (hlimits : (r.equationAt vals).proof.WithinLimits) :
    env.Checks Γ (r.equationAt vals).proof (r.equationAt vals).statement := by
  unfold Rule.equationAt at hlimits ⊢
  rw [hrel] at hlimits ⊢
  cases hrev : r.reversed with
  | false => exact hproof
  | true =>
    rw [hrev] at hlimits
    have hargs := hlimits.mkApp.2
    exact ⟨_, henv.gives_eqSymm hα ha hb hproof fun v hv => (hargs v hv).nesting, .refl _⟩

/-- An instance of an equivalence, turned round if the rule is, as an equation
between propositions. -/
theorem ExtendsPrelude.checks_equationAt_iff (henv : env.ExtendsPrelude)
    (hrel : r.statement.relation = .iff)
    (ha : env.Checks Γ (r.statement.lhs.instantiateRev vals) .prop)
    (hb : env.Checks Γ (r.statement.rhs.instantiateRev vals) .prop)
    (hproof : env.Checks Γ (Expr.mkApp r.proof vals)
      (.mkIff (r.statement.lhs.instantiateRev vals) (r.statement.rhs.instantiateRev vals)))
    (hlimits : (r.equationAt vals).proof.WithinLimits) :
    env.Checks Γ (r.equationAt vals).proof (r.equationAt vals).statement := by
  unfold Rule.equationAt at hlimits ⊢
  rw [hrel] at hlimits ⊢
  cases hrev : r.reversed with
  | false =>
    rw [hrev] at hlimits
    have hargs := hlimits.mkApp.2
    exact ⟨_, henv.gives_propext ha hb hproof fun v hv => (hargs v hv).nesting, .refl _⟩
  | true =>
    rw [hrev] at hlimits
    let flipped := Expr.mkApp (.const Vocabulary.iffSymm [])
      [r.statement.lhs.instantiateRev vals, r.statement.rhs.instantiateRev vals,
        Expr.mkApp r.proof vals]
    have hargs := hlimits.mkApp.2
    have hflip := (hargs flipped (by simp [flipped])).mkApp.2
    have hsymm : env.Checks Γ flipped (.mkIff (r.statement.rhs.instantiateRev vals)
        (r.statement.lhs.instantiateRev vals)) :=
      ⟨_, henv.gives_iffSymm ha hb hproof fun v hv => (hflip v hv).nesting, .refl _⟩
    exact ⟨_, henv.gives_propext hb ha hsymm fun v hv => (hargs v hv).nesting, .refl _⟩

/-- An instance of a rule is proved if the proof that the rule was made from
takes its values, and the instance is a proposition. -/
theorem ExtendsPrelude.checks_equationAt (henv : env.ExtendsPrelude) (hfree : env.FVarFree)
    (hΓ : Γ.FVarsIn FVarId.IsOuter) {proof : Expr} {reversed : Bool} {source : String}
    (hr : Rule.ofProof? proof type reversed source = some r) (hlen : vals.length = r.numVars)
    (hproof : env.Gives Γ proof type) (happ : env.Gives Γ (Expr.mkApp proof vals) T)
    (hprop : env.Checks Γ (type.telescope.2.instantiateRev vals) .prop)
    (htype : type.nesting < 2 ^ 31)
    (hinst : (type.telescope.2.instantiateRev vals).WithinLimits)
    (hlimits : (r.equationAt vals).proof.WithinLimits) :
    env.Checks Γ (r.equationAt vals).proof (r.equationAt vals).statement := by
  obtain ⟨s, hs, rfl⟩ := Option.map_eq_some_iff.mp hr
  obtain ⟨P, hP, -⟩ := hprop
  have hP := hP.stripMData
  have hinst := hinst.stripMData
  have hT := hfree.gives_mkApp_telescope hΓ hproof hlen.symm happ (withinLimits_mkApp hlimits) htype
  have hstrip := stripMData_instantiateRev type.telescope.2 vals
  -- The rule is an equation, or an equivalence, and each is an instance of its constant.
  rcases statement?_eq_some hs with ⟨hrel, hS⟩ | ⟨hrel, -, -, ls, hS⟩
  · have hS : (type.telescope.2.instantiateRev vals).stripMData =
        .mkEq s.level (s.carrier.instantiateRev vals) (s.lhs.instantiateRev vals)
          (s.rhs.instantiateRev vals) := by
      rw [← hstrip, hS, Statement.toExpr, Statement.rebuild, hrel]
      rfl
    rw [hS] at hP hinst hT
    obtain ⟨hα, ha, hb⟩ := henv.of_gives_mkEq hfree hΓ hinst hP
    have hstuck := reduces_mkApp_const
      (henv.value?_eq : env.value? Vocabulary.eq [s.level] = none)
      [s.carrier.instantiateRev vals, s.lhs.instantiateRev vals, s.rhs.instantiateRev vals]
    exact henv.checks_equationAt_eq hrel hα ha hb (happ.checks_of_stripMData hT hstuck) hlimits
  · have hS : (type.telescope.2.instantiateRev vals).stripMData =
        Expr.mkApp (.const Vocabulary.iff ls)
          [s.lhs.instantiateRev vals, s.rhs.instantiateRev vals] := by
      rw [← hstrip, hS]
      rfl
    rw [hS] at hP hinst hT
    obtain ⟨rfl, ha, hb⟩ := henv.of_gives_iff hfree hΓ hinst hP
    have hstuck := reduces_mkApp_const (henv.value?_iff : env.value? Vocabulary.iff [] = none)
      [s.lhs.instantiateRev vals, s.rhs.instantiateRev vals]
    exact henv.checks_equationAt_iff hrel ha hb (happ.checks_of_stripMData hT hstuck) hlimits

end

/-! ### Reflexivity -/

theorem DefEq.of_stripMData (h : env.Reduces e.stripMData e.stripMData) :
    env.DefEq e.stripMData e :=
  .of_reduces h (.of_stripMData h)

/-- The constant that proves equations has one universe parameter. -/
theorem ExtendsPrelude.reflProof_of_eq (henv : env.ExtendsPrelude) {s : Statement}
    {refl : Constant} (hrel : s.relation = .eq)
    (hrefl : env.find? s.relation.reflName = some refl) :
    s.reflProof refl = Expr.mkApp (.const Vocabulary.eqRefl [s.level]) [s.carrier, s.lhs] := by
  rw [hrel, Relation.reflName, henv.find?_eq (n := Vocabulary.eqRefl) (by rfl)] at hrefl
  obtain rfl := Option.some.inj hrefl
  rw [Statement.reflProof, hrel]
  rfl

/-- A statement whose sides are equal by definition is equal to that of its left
side and itself. -/
theorem ExtendsPrelude.defEq_rebuild_lhs (henv : env.ExtendsPrelude) {target : Expr}
    {s : Statement} (htarget : target.stripMData = s.toExpr) (hsides : env.DefEq s.lhs s.rhs) :
    env.DefEq (s.rebuild s.lhs s.lhs) target := by
  rw [Statement.toExpr] at htarget
  unfold Statement.rebuild at htarget ⊢
  cases hrel : s.relation <;> rw [hrel] at htarget
  · have hstuck := reduces_mkApp_const
      (henv.value?_eq : env.value? Vocabulary.eq [s.level] = none) [s.carrier, s.lhs, s.rhs]
    have hdef : env.DefEq target.stripMData target := .of_stripMData (htarget ▸ hstuck)
    rw [htarget] at hdef
    exact (henv.defEq_mkEq rfl (.refl _) (.refl _) hsides).trans hdef
  · have hstuck := reduces_mkApp_const
      (henv.value?_iff : env.value? Vocabulary.iff [] = none) [s.lhs, s.rhs]
    have hdef : env.DefEq target.stripMData target := .of_stripMData (htarget ▸ hstuck)
    rw [htarget] at hdef
    exact (henv.defEq_mkIff (.refl _) hsides).trans hdef

/-! ### A checker that has drawn nothing yet -/

/-- Whether a checker that has drawn nothing yet gives a term a type that is
equal by definition to the given one. -/
def Accepts (env : Environment) (Γ : LocalContext) (e type : Expr) : Prop :=
  ∃ T, env.Infers Γ e T ∧ env.DefEq T type

theorem FVarFree.checks_of_accepts (hfree : env.FVarFree) (hΓ : Γ.FVarsIn FVarId.IsOuter)
    (he : e.WithinLimits) (h : env.Accepts Γ e type) : env.Checks Γ e type := by
  obtain ⟨T, hT, hdef⟩ := h
  exact ⟨T, hfree.gives_of_infers hΓ he.outer he.fits hT, hdef⟩

theorem Checks.accepts (h : env.Checks Γ e type) (he : e.WithinLimits) :
    env.Accepts Γ e type := by
  obtain ⟨T, hT, hdef⟩ := h
  exact ⟨T, hT.infers he.fits, hdef⟩

/-- Whether the checker accepts all that is built, provided it accepts what it
is built from: instances of rules, equations lifted through functions, and the
casts along equations between propositions. -/
structure AcceptsBuilt (env : Environment) (Γ : LocalContext) : Prop where
  instantiate (r : Rule) (vals : List Expr) {proof type T : Expr} {reversed : Bool}
    {source : String} : Rule.ofProof? proof type reversed source = some r →
    vals.length = r.numVars → env.Infers Γ proof type →
    env.Infers Γ (Expr.mkApp proof vals) T →
    env.Accepts Γ (type.telescope.2.instantiateRev vals) .prop → type.nesting < 2 ^ 31 →
    (type.telescope.2.instantiateRev vals).WithinLimits →
    ∃ eq, r.instantiate env (vals.map some) = .ok eq ∧
      eq.lhs = r.pattern.instantiateRev vals ∧ eq.rhs = r.replacement.instantiateRev vals ∧
      (eq.proof.WithinLimits → env.Accepts Γ eq.proof eq.statement)
  congruence (eq : Equation) (motive codomain : Expr) (l : Level) {dom body a b : Expr}
    {info : BinderInfo} : motive.stripMData = .lam info dom body →
    env.Accepts Γ eq.proof eq.statement → env.Accepts Γ eq.statement .prop →
    env.Accepts Γ codomain (.sort l) → env.Accepts Γ motive (.arrow eq.carrier codomain) →
    env.Reduces (body.instantiate eq.lhs) a → env.Reduces (body.instantiate eq.rhs) b →
    eq.statement.WithinLimits →
    ∃ eq', eq.congruence env motive codomain l = .ok eq' ∧
      eq'.statement = .mkEq l codomain (body.instantiate eq.lhs) (body.instantiate eq.rhs) ∧
      (eq'.proof.WithinLimits → env.Accepts Γ eq'.proof eq'.statement)
  castGoal (eq : Equation) (new : Expr) : eq.carrier.isProp →
    env.Accepts Γ eq.proof eq.statement → env.Accepts Γ eq.statement .prop →
    env.Accepts Γ new eq.rhs → eq.statement.WithinLimits →
    ∃ p, eq.castGoal env new = .ok p ∧ (p.WithinLimits → env.Infers Γ p eq.lhs)
  castHyp (eq : Equation) (old : Expr) : eq.carrier.isProp →
    env.Accepts Γ eq.proof eq.statement → env.Accepts Γ eq.statement .prop →
    env.Accepts Γ old eq.lhs → eq.statement.WithinLimits →
    ∃ p, eq.castHyp env old = .ok p ∧ (p.WithinLimits → env.Infers Γ p eq.rhs)

/-- An equation whose proof and statement are accepted is proved. -/
theorem FVarFree.proves_of_accepts (hfree : env.FVarFree) (hΓ : Γ.FVarsIn FVarId.IsOuter)
    {eq : Equation} (hlimits : eq.statement.WithinLimits) (hlimits' : eq.proof.WithinLimits)
    (hproof : env.Accepts Γ eq.proof eq.statement) (hprop : env.Accepts Γ eq.statement .prop) :
    env.Proves Γ eq :=
  ⟨hfree.checks_of_accepts hΓ hlimits' hproof, hfree.checks_of_accepts hΓ hlimits hprop⟩

/-- What is built with the prelude is accepted in every context, if none of
the variables in it are the checker's own. -/
theorem ExtendsPrelude.acceptsBuilt (henv : env.ExtendsPrelude) (hfree : env.FVarFree)
    (hΓ : Γ.FVarsIn FVarId.IsOuter) : env.AcceptsBuilt Γ where
  instantiate := by
    intro r vals proof type T reversed source hr hlen hproof happ hprop htype hinst
    refine ⟨r.equationAt vals, henv.instantiate_eq_ok r vals, r.equationAt_lhs vals,
      r.equationAt_rhs vals, fun hlimits => ?_⟩
    obtain ⟨s, hs, rfl⟩ := Option.map_eq_some_iff.mp hr
    -- The rule is well typed with its values, as its proof and its statement are accepted.
    have happl := withinLimits_mkApp hlimits
    have hproofl := happl.mkApp.1
    exact (henv.checks_equationAt hfree hΓ hr hlen
      (hfree.gives_of_infers hΓ hproofl.outer hproofl.fits hproof)
      (hfree.gives_of_infers hΓ happl.outer happl.fits happ)
      (hfree.checks_of_accepts hΓ hinst hprop) htype hinst hlimits).accepts hlimits
  congruence := by
    intro eq motive codomain l dom body a b info hlam hproof hprop hcodomain hmotive hlhs hrhs
      hlimits
    -- The prelude has the constant, so the equation can be built.
    have hcongr := henv.constant_eq_ok (n := Vocabulary.congrArg) (by rfl) [eq.level, l]
    refine ⟨_, by rw [Equation.congruence, hlam, hcongr]; rfl, rfl, fun hlimits' => ?_⟩
    have hargs := hlimits'.mkApp.2
    have hproves := hfree.proves_of_accepts hΓ hlimits (hargs eq.proof (by simp)) hproof hprop
    exact (hproves.congruence henv hfree hΓ hlimits
      (by rw [Equation.congruence, hlam, hcongr]; rfl)
      (hfree.checks_of_accepts hΓ (hargs _ (by simp)) hcodomain)
      (hfree.checks_of_accepts hΓ (hargs motive (by simp)) hmotive) hlhs hrhs
      hlimits').accepts hlimits'
  castGoal := by
    intro eq new hcarrier hproof hprop hnew hlimits
    have hmpr := henv.constant_eq_ok (n := Vocabulary.eqMpr) (by rfl) [.zero]
    have hcast : eq.castGoal env new = .ok (Expr.mkApp (.const Vocabulary.eqMpr [.zero])
        [eq.lhs, eq.rhs, eq.proof, new]) := by
      rw [Equation.castGoal, if_pos hcarrier, hmpr]
      rfl
    refine ⟨_, hcast, fun hplimits => ?_⟩
    have hargs := hplimits.mkApp.2
    have hproves := hfree.proves_of_accepts hΓ hlimits (hargs eq.proof (by simp)) hproof hprop
    have hnew := hfree.checks_of_accepts hΓ (hargs new (by simp)) hnew
    exact (hproves.castGoal henv hfree hΓ hlimits hcarrier hnew
      fun v hv => (hargs v hv).nesting).infers hplimits.fits
  castHyp := by
    intro eq old hcarrier hproof hprop hold hlimits
    have hmp := henv.constant_eq_ok (n := Vocabulary.eqMp) (by rfl) [.zero]
    have hcast : eq.castHyp env old = .ok (Expr.mkApp (.const Vocabulary.eqMp [.zero])
        [eq.lhs, eq.rhs, eq.proof, old]) := by
      rw [Equation.castHyp, if_pos hcarrier, hmp]
      rfl
    refine ⟨_, hcast, fun hplimits => ?_⟩
    have hargs := hplimits.mkApp.2
    have hproves := hfree.proves_of_accepts hΓ hlimits (hargs eq.proof (by simp)) hproof hprop
    have hold := hfree.checks_of_accepts hΓ (hargs old (by simp)) hold
    exact (hproves.castHyp henv hfree hΓ hlimits hcarrier hold
      fun v hv => (hargs v hv).nesting).infers hplimits.fits

end Environment

/-! ### An equivalence used in both directions -/

namespace Equivalents

/-- A proposition. -/
def p : Expr := .fvar ⟨0⟩

/-- A proposition. -/
def q : Expr := .fvar ⟨1⟩

/-- The hypothesis that both are equivalent. -/
def h : Expr := .fvar ⟨2⟩

/-- A proof of the second one. -/
def hq : Expr := .fvar ⟨3⟩

def env : Environment := ⟨Prelude.constants⟩

def locals : LocalContext :=
  (((LocalContext.empty.push ⟨0⟩ (.simple "p") .prop).push ⟨1⟩ (.simple "q") .prop).push ⟨2⟩
    (.simple "h") (.mkIff p q)).push ⟨3⟩ (.simple "hq") q

/-- The hypothesis as a rule. -/
def rule : Rule := ⟨h, [], ⟨.iff, .one, .prop, p, q⟩, false, "h"⟩

/-- What is equivalent to the second proposition. -/
def motive : Expr := .lam .default .prop (.mkIff (.bvar 0) q)

/-- The equation of the propositions. -/
def equation : Equation := rule.equationAt []

/-- The equation lifted through the function. -/
def lifted : Equation := equation.under .prop (.mkIff (.bvar 0) q) .prop .one

theorem withinLimits {e : Expr}
    (h : e.FVarsIn FVarId.IsOuter ∧ e.letFree ∧ e.nesting < 2 ^ 31 ∧ e.size < 2 ^ 63) :
    e.WithinLimits :=
  .of_letFree h.1 h.2.1 h.2.2.1 h.2.2.2

end Equivalents

open Equivalents in
/-- The first proposition is proved from the second one, and the equivalence
of the second one with itself from the hypothesis. -/
theorem equivalence_casts_accepted :
    ∃ goal hyp, equation.castGoal env hq = .ok goal ∧ env.Infers locals goal p ∧
      lifted.castHyp env h = .ok hyp ∧ env.Infers locals hyp (.mkIff q q) := by
  have hbuilt := Environment.extendsPrelude_prelude.acceptsBuilt Environment.fvarFree_prelude
    (show locals.FVarsIn FVarId.IsOuter by decide)
  have hinfers : ∀ {e T : Expr}, (env.inferType 20 locals e).runFresh = some (.ok T) →
      env.Accepts locals e T :=
    fun he => ⟨_, ⟨20, he⟩, .refl _⟩
  have hred : ∀ {e e' : Expr}, env.whnf .all 20 e = some e' → env.Reduces e e' :=
    fun he => ⟨20, he⟩
  -- the rule without variables states the equation of the propositions
  have hrule : Rule.ofProof? h (.mkIff p q) false "h" = some rule := by rfl
  have happ : env.Infers locals (.mkApp h []) (.mkIff p q) := ⟨20, by rfl⟩
  obtain ⟨eq, heq, -, -, hproof⟩ := hbuilt.instantiate rule [] hrule (by rfl) happ happ
    (hinfers (by rfl)) (by decide) (withinLimits (by decide))
  obtain rfl : equation = eq := Except.ok.inj heq
  have hproof := hproof (withinLimits (by decide))
  obtain ⟨goal, hgoal, hgoalp⟩ := hbuilt.castGoal equation hq (by rfl) hproof (hinfers (by rfl))
    (hinfers (by rfl)) (withinLimits (by decide))
  -- which is lifted to one of equivalences
  obtain ⟨eq', heq', -, hproof'⟩ := hbuilt.congruence equation motive .prop .one rfl hproof
    (hinfers (by rfl)) (hinfers (by rfl)) (hinfers (by rfl)) (hred (by rfl)) (hred (by rfl))
    (withinLimits (by decide))
  obtain rfl : lifted = eq' := Except.ok.inj heq'
  have hproof' := hproof' (withinLimits (by decide))
  obtain ⟨hyp, hhyp, hhypq⟩ := hbuilt.castHyp lifted h (by rfl) hproof' (hinfers (by rfl))
    (hinfers (by rfl)) (withinLimits (by decide))
  cases hgoal
  cases hhyp
  exact ⟨_, _, rfl, hgoalp (withinLimits (by decide)), rfl, hhypq (withinLimits (by decide))⟩

/-! ### A variable that the checker draws -/

namespace Capture

/-- The natural numbers. -/
def nat : Expr := .const Vocabulary.nat []

def a : Expr := .fvar ⟨0⟩

def b : Expr := .fvar ⟨1⟩

/-- The first variable that a checker draws. -/
def drawn : Expr := .fvar ⟨Checker.firstFresh⟩

/-- Two numbers that are equal, and a text with the number of a variable that
the checker draws. -/
def locals : LocalContext :=
  (((LocalContext.empty.push ⟨0⟩ (.simple "a") nat).push ⟨1⟩ (.simple "b") nat).push ⟨2⟩
    (.simple "h") (.mkEq .one nat a b)).push ⟨Checker.firstFresh⟩ (.simple "F")
      (.const Vocabulary.string [])

def equation : Equation := ⟨.one, nat, a, b, .fvar ⟨2⟩⟩

/-- The function to the text, which is taken for the identity if its variable
is the first that is drawn. -/
def motive : Expr := .lam .default nat drawn

/-- The natural numbers, for which a variable is drawn. -/
def codomain : Expr := .app (.lam .default nat nat) a

def lifted : Equation := equation.under nat drawn codomain .one

end Capture

open Capture in
/-- Not every function that is accepted by itself lifts an equation: the
checker draws the variable of the function sooner or later, and may take it
for another one. -/
theorem captured_motive_rejected :
    ¬ ∀ (env : Environment) (Γ : LocalContext) (eq eq' : Equation) (motive codomain : Expr)
      (l : Level), env.ExtendsPrelude → eq.congruence env motive codomain l = .ok eq' →
        env.Accepts Γ eq.proof eq.statement → env.Accepts Γ eq.statement .prop →
        env.Accepts Γ codomain (.sort l) → env.Accepts Γ motive (.arrow eq.carrier codomain) →
        env.Accepts Γ eq'.proof eq'.statement := by
  intro h
  let env : Environment := ⟨Prelude.constants⟩
  have hinfers : ∀ {e T : Expr}, (env.inferType 20 locals e).runFresh = some (.ok T) →
      env.Infers locals e T :=
    fun he => ⟨20, he⟩
  obtain ⟨T, hT, -⟩ := h env locals equation lifted motive codomain .one
    Environment.extendsPrelude_prelude (by rfl) ⟨_, hinfers (by rfl), .refl _⟩
    ⟨_, hinfers (by rfl), .refl _⟩ ⟨_, hinfers (by rfl), .refl _⟩
    ⟨_, hinfers (by rfl), 20, by rfl⟩
  have herror : (env.inferType 20 locals lifted.proof).runFresh = some (.error (.typeMismatch
      (.arrow nat codomain) (.arrow nat (.const Vocabulary.string [])))) := by
    rfl
  exact Environment.not_infers_of_error herror hT

end Pinpoint
