/-
Casts between statements that differ in metadata.

A replacement is accepted if the left side of its equation is the statement up
to metadata and binder annotations; the cast that is built says the left side,
and the checker has to take it where the statement is expected.  Terms that are
the same up to metadata are never found different, so it does.

* `of_infersFrom_cast` — the type of a cast that lacks the proof to be cast;
* `infersFrom_eqMpr`, `infersFrom_eqMp` — the types of casts are the sides of the
  equation as they are;
* `checkType_eqMpr`, `inferType_eqMp` — a cast is refused at a statement that is
  the left side up to metadata only if the cast itself has no type;
* `alike_statements_accepted` — so no accepted replacement leads to a cast that is
  refused at the statement that was replaced.
-/
import Pinpoint.Proofs.Reflexivity
import Pinpoint.Proofs.SameHeads
import Pinpoint.Proofs.TypedInference

namespace Pinpoint

/-- The types of the casts: an equation between two types of a universe leads
from one of them to the other. -/
def Prelude.castType (l : Level) (rest : Expr) : Expr :=
  .pi .implicit (.sort l) (.pi .implicit (.sort l)
    (.pi .default (.mkEq (.succ l) (.sort l) (.bvar 1) (.bvar 0)) rest))

namespace Environment

open Pinpoint.Expr

variable {env : Environment} {Γ : LocalContext} {s s' : UInt64} {n : Nat} {t : Transparency}
  {a b p f F T A type e : Expr} {l : Level} {r : Bool} {x : FVarId}

/-- Checks that a term has a type, as the value of a constant is checked. -/
def checkType (env : Environment) (fuel : Nat) (Γ : LocalContext) (e type : Expr) :
    CheckM Unit := do
  let A ← env.inferType fuel Γ e
  unless ← env.isDefEq .all fuel A type do throw (.typeMismatch type A)

/-- Terms that are the same up to metadata are not found different. -/
theorem Decides.of_eqModMData (h : env.Decides t a b r) (hab : a.eqModMData b = true) : r = true :=
  Decides.of_alike ((eqModMData_iff a b).mp hab) (Eq.refl b.skeleton) h ⟨1, isDefEq_refl b⟩

/-! ### Types of casts -/

namespace ExtendsPrelude

variable (henv : env.ExtendsPrelude)
include henv

/-- The type of a cast that lacks the proof to be cast; its sides are terms that have
types. -/
theorem of_infersFrom_cast {c : Name} (rest : Expr)
    (hc : (find? ⟨Prelude.constants⟩ c).map (·.instantiateType [l]) =
      some (.ok (Prelude.castType l rest)))
    (h : env.InfersFrom Γ s (Expr.mkApp (.const c [l]) [a, b, p]) F s') :
    (∃ A t t', env.InfersFrom Γ t a A t') ∧
      F = (mapVars (instVar b) (fun _ x => .fvar x) 1
        (mapVars (instVar a) (fun _ x => .fvar x) 2 rest)).instantiate p := by
  -- one argument after the other is taken off, and the constant is left
  obtain ⟨_, _, _, _, _, _, h₂, hpi₂, -, -, rfl⟩ := infersFrom_app_iff.mp h
  obtain ⟨_, _, _, _, _, _, h₁, hpi₁, -, -, rfl⟩ := infersFrom_app_iff.mp h₂
  obtain ⟨_, A, _, _, _, _, h₀, hpi₀, ha, -, rfl⟩ := infersFrom_app_iff.mp h₁
  obtain ⟨rfl, rfl⟩ := henv.eq_of_infersFrom_const hc h₀
  -- its type is a chain of quantifiers, so no reduction changes it between the arguments
  obtain ⟨-, rfl⟩ := Reduces.pi_inj hpi₀
  rw [instantiate_eq_mapVars] at hpi₁
  obtain ⟨-, rfl⟩ := Reduces.pi_inj hpi₁
  rw [instantiate_eq_mapVars] at hpi₂
  obtain ⟨-, rfl⟩ := Reduces.pi_inj hpi₂
  exact ⟨⟨A, _, _, ha⟩, rfl⟩

/-- A cast to the left side of an equation has that side as its type. -/
theorem infersFrom_eqMpr (hnesting : a.nesting < 2 ^ 31)
    (h : env.InfersFrom Γ s (Expr.mkApp (.const Vocabulary.eqMpr [l]) [a, b, p, f]) T s') :
    T = a := by
  obtain ⟨_, _, _, _, _, _, h₃, hpi₃, -, -, rfl⟩ := infersFrom_app_iff.mp h
  obtain ⟨⟨A, _, _, ha⟩, rfl⟩ :=
    henv.of_infersFrom_cast (.pi .default (.bvar 1) (.bvar 3)) (by rfl) h₃
  have hsmall := ha.small hnesting
  obtain ⟨-, rfl⟩ := Reduces.pi_inj hpi₃
  show (mapVars (instVar p) _ 1 (mapVars (instVar b) _ 2 (a.lift 3))).instantiate f = a
  rw [hsmall.lift, hsmall.mapVars_inst (by decide), hsmall.mapVars_inst (by decide),
    hsmall.instantiate]

/-- A cast from the left side of an equation is a function of proofs of that side. -/
theorem infersFrom_eqMp (hnesting : a.nesting < 2 ^ 31)
    (h : env.InfersFrom Γ s (Expr.mkApp (.const Vocabulary.eqMp [l]) [a, b, p]) F s') :
    ∃ body, F = .pi .default a body := by
  obtain ⟨⟨A, _, _, ha⟩, rfl⟩ :=
    henv.of_infersFrom_cast (.pi .default (.bvar 2) (.bvar 2)) (by rfl) h
  have hsmall := ha.small hnesting
  refine ⟨_, congrArg (Expr.pi _ · _) ?_⟩
  show (mapVars (instVar b) _ 1 (a.lift 2)).instantiate p = a
  rw [hsmall.lift, hsmall.mapVars_inst (by decide), hsmall.instantiate]

/-! ### Refusals -/

/-- A cast to the left side of an equation that has a type is taken where a
statement is expected that is the left side up to metadata. -/
theorem checkType_eqMpr (hnesting : a.nesting < 2 ^ 31) (ha : a.eqModMData type = true)
    (hcast : (env.inferType n Γ
      (Expr.mkApp (.const Vocabulary.eqMpr [l]) [a, b, p, f])).NeverFails s) :
    (env.checkType n Γ
      (Expr.mkApp (.const Vocabulary.eqMpr [l]) [a, b, p, f]) type).NeverFails s := by
  refine hcast.bind fun A t hA => (CheckM.neverFails_lift _).bind fun r t' hr => ?_
  obtain rfl := henv.infersFrom_eqMpr hnesting ⟨n, hA⟩
  have hdecides : env.Decides .all A type r := ⟨n, (CheckM.returns_lift.mp hr).1⟩
  obtain rfl := hdecides.of_eqModMData ha
  exact CheckM.neverFails_pure ()

/-- A cast from the left side of an equation that has a type is applied to a
hypothesis whose type is the left side up to metadata. -/
theorem inferType_eqMp (hnesting : a.nesting < 2 ^ 31) (ha : a.eqModMData type = true)
    {entry : LocalEntry} (hx : Γ.find? x = some entry) (htype : entry.type = type)
    (hcast : (env.inferType n Γ
      (Expr.mkApp (.const Vocabulary.eqMp [l]) [a, b, p])).NeverFails s) :
    (env.inferType (n + 1) Γ
      (Expr.mkApp (.const Vocabulary.eqMp [l]) [a, b, p, .fvar x])).NeverFails s := by
  refine hcast.bind fun F t hF => (CheckM.neverFails_lift _).bind fun P t' hP => ?_
  obtain ⟨body, rfl⟩ := henv.infersFrom_eqMp hnesting ⟨n, hF⟩
  obtain ⟨hw, rfl⟩ := CheckM.returns_lift.mp hP
  -- the type of the function is in head normal form, so it is found as it is
  obtain _ | n := n
  · cases hw
  obtain rfl := Option.some.inj hw
  have harg : (env.inferType (n + 1) Γ (.fvar x)).NeverFails t := by
    rw [inferType, hx]
    exact CheckM.neverFails_pure _
  refine harg.bind fun A t' hA => (CheckM.neverFails_lift _).bind fun r t'' hr => ?_
  obtain ⟨⟨entry', hx', rfl⟩, -⟩ := inferType_fvar_returns_iff.mp hA
  obtain rfl := Option.some.inj (hx.symm.trans hx')
  -- the checker compares the type of the hypothesis with the left side
  have halike : entry.type.eqModMData a = true := by
    rw [eqModMData_iff, htype]
    exact ((eqModMData_iff a type).mp ha).symm
  have hdecides : env.Decides .all entry.type a r := ⟨n + 1, (CheckM.returns_lift.mp hr).1⟩
  obtain rfl := hdecides.of_eqModMData halike
  exact CheckM.neverFails_pure _

end ExtendsPrelude

end Environment

/-! ### Replacements -/

/-- Terms that are the same up to metadata and binder annotations are never found
different, and each comparison has one answer for both.  So where a target or a
hypothesis is replaced through an equation whose left side is the statement up to
these, the cast that is recorded is refused at the statement only if it is refused
for itself. -/
theorem alike_statements_accepted :
    (∀ (env : Environment) (t : Transparency) (a b : Expr), a.eqModMData b = true →
      (∀ r, env.Decides t a b r → r = true) ∧
      ∀ c r r', env.Decides t c a r → env.Decides t c b r' → r = r') ∧
    (∀ (st st' : ProofState) (eq : Equation), st.env.ExtendsPrelude → eq.lhs.nesting < 2 ^ 31 →
      (st.replaceTarget eq).run = some (.ok st') →
        ∃ g target cast, st.currentGoal? = some g ∧ st.metas.instantiate? g.target = some target ∧
          st'.metas = (st.metas.push eq.rhs).assign g.metaId cast ∧
          ∀ n Γ s, (st.env.inferType n Γ cast).NeverFails s →
            (st.env.checkType n Γ cast target).NeverFails s) ∧
    ∀ (st st' : ProofState) (x : FVarId) (eq : Equation), st.env.ExtendsPrelude →
      eq.lhs.nesting < 2 ^ 31 → (st.replaceHyp x eq).run = some (.ok st') →
        ∃ g h type castFn, st.currentGoal? = some g ∧ g.hyps.find? (fun h => h.fvar = x) = some h ∧
          st.metas.instantiate? h.type = some type ∧
          st'.hypValues = st.hypValues ++ [(⟨st.nextFVar⟩, .app castFn (.fvar x))] ∧
          ∀ n Γ s entry, Γ.find? x = some entry → entry.type = type →
            (st.env.inferType n Γ castFn).NeverFails s →
              (st.env.inferType (n + 1) Γ (.app castFn (.fvar x))).NeverFails s := by
  refine ⟨fun env t a b hab => ⟨fun r h => h.of_eqModMData hab, fun c r r' h h' => ?_⟩, ?_, ?_⟩
  · exact Environment.Decides.of_alike (Eq.refl c.skeleton) ((Expr.eqModMData_iff a b).mp hab) h h'
  · intro st st' eq henv hnesting h
    obtain ⟨g, target, cast, hg, htarget, halike, hcast, rfl⟩ := ProofState.replaceTarget_eq_ok h
    obtain ⟨-, rfl⟩ := Equation.castGoal_eq_ok hcast
    exact ⟨g, target, _, hg, htarget, rfl, fun n Γ s => henv.checkType_eqMpr hnesting halike⟩
  · intro st st' x eq henv hnesting h
    obtain ⟨g, old, type, value, hg, hold, htype, halike, -, hcast, rfl⟩ :=
      ProofState.replaceHyp_eq_ok h
    obtain ⟨-, rfl⟩ := Equation.castHyp_eq_ok hcast
    exact ⟨g, old, type, .mkApp (.const Vocabulary.eqMp [.zero]) [eq.lhs, eq.rhs, eq.proof], hg,
      hold, htype, rfl, fun n Γ s entry hx hentry => henv.inferType_eqMp hnesting halike hx hentry⟩

namespace CastExample

/-- Zero. -/
def zero : Expr := .const Vocabulary.natZero []

/-- Zero is equal to itself. -/
def plain : Expr := .mkEq .one (.const Vocabulary.nat []) zero zero

/-- The same statement, with metadata between the relation and its right side. -/
def marked : Expr :=
  .app (.mdata [(.simple "m", .bool true)] (.app (.app (.const Vocabulary.eq [.one])
    (.const Vocabulary.nat [])) zero)) zero

/-- The statement without metadata is equal to itself. -/
def equation : Equation :=
  ⟨.one, .prop, plain, plain, .mkApp (.const Vocabulary.eqRefl [.one]) [.prop, plain]⟩

/-- A proof of a statement from itself. -/
def begun : ProofState := .start ⟨Prelude.constants⟩ marked [⟨⟨0⟩, "h", marked, none⟩]

/-- The hypothesis, and the hole of the goal that is left. -/
def context : LocalContext :=
  (LocalContext.empty.push ⟨0⟩ (.simple "h") marked).push (MetaId.toFVar ⟨1⟩) (.simple "g") plain

/-- The cast of a proof of the new goal. -/
def goalCast : Expr :=
  .mkApp (.const Vocabulary.eqMpr [.zero]) [plain, plain, equation.proof, .fvar (MetaId.toFVar ⟨1⟩)]

/-- The cast that lacks the hypothesis. -/
def hypCast : Expr := .mkApp (.const Vocabulary.eqMp [.zero]) [plain, plain, equation.proof]

end CastExample

open CastExample in
/-- Metadata between a relation and its right side. -/
theorem alike_statements_accepted_marked :
    Environment.Decides ⟨Prelude.constants⟩ .all plain marked true ∧
      (∃ st', (begun.replaceTarget equation).run = some (.ok st') ∧
        st'.metas.value? ⟨0⟩ = some goalCast ∧
        (begun.env.checkType 20 context goalCast marked).NeverFails 0) ∧
      ∃ st', (begun.replaceHyp ⟨0⟩ equation).run = some (.ok st') ∧
        st'.hypValues = [(⟨1⟩, .app hypCast (.fvar ⟨0⟩))] ∧
        (begun.env.inferType 21 context (.app hypCast (.fvar ⟨0⟩))).NeverFails 0 := by
  obtain ⟨halike, htarget, hhyp⟩ := alike_statements_accepted
  have henv := Environment.extendsPrelude_prelude
  refine ⟨?_, ?_, ?_⟩
  · obtain ⟨r, hr⟩ : ∃ r, Environment.Decides ⟨Prelude.constants⟩ .all plain marked r :=
      ⟨_, 20, by rfl⟩
    obtain rfl := (halike ⟨Prelude.constants⟩ .all plain marked (by decide)).1 r hr
    exact hr
  · -- The casts that were stored are computed, and the general theorem is about them.
    obtain ⟨st', hst', hvalue⟩ : ∃ st', (begun.replaceTarget equation).run = some (.ok st') ∧
        st'.metas.value? ⟨0⟩ = some goalCast := ⟨_, by rfl, by rfl⟩
    obtain ⟨g, target, cast, hg, ht, hmetas, haccepted⟩ :=
      htarget begun st' equation henv (by decide) hst'
    obtain rfl := Option.some.inj hg
    obtain rfl := Option.some.inj ht
    rw [hmetas] at hvalue
    obtain rfl : cast = goalCast := Option.some.inj hvalue
    have hcast : (begun.env.inferType 20 context goalCast).Returns 0 plain 0 := by rfl
    exact ⟨st', hst', hmetas ▸ hvalue, haccepted 20 context 0 hcast.neverFails⟩
  · obtain ⟨st', hst', hvalues⟩ : ∃ st', (begun.replaceHyp ⟨0⟩ equation).run = some (.ok st') ∧
        st'.hypValues = [(⟨1⟩, .app hypCast (.fvar ⟨0⟩))] := ⟨_, by rfl, by rfl⟩
    obtain ⟨g, h, type, castFn, hg, hh, ht, hvalue, haccepted⟩ :=
      hhyp begun st' ⟨0⟩ equation henv (by decide) hst'
    obtain rfl := Option.some.inj hg
    obtain rfl := Option.some.inj hh
    obtain rfl := Option.some.inj ht
    obtain rfl : hypCast = castFn := by
      rw [hvalues] at hvalue
      exact (Expr.app.inj (Prod.mk.inj (List.cons.inj hvalue).1).2).1
    have hcast : ∃ F, (begun.env.inferType 20 context hypCast).Returns 0 F 0 := ⟨_, by rfl⟩
    obtain ⟨F, hF⟩ := hcast
    exact ⟨st', hst', hvalues, haccepted 20 context 0 _ rfl rfl hF.neverFails⟩

end Pinpoint
