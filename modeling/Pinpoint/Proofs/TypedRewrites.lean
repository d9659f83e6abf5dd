/-
Types of the equation along which a statement is rewritten.

The search asks a checker for the types of the values of a match, so an instance
of a rule has a type if the proof of the rule has one.  Nothing asks whether the
term around the match is a function of what stands at its position: that this
motive has a type is what has to be asked where an equation is lifted through
it.

* `Checker.InfersWithin`, `Checker.AcceptsWithin` — questions to a checker that
  are answered within the widths of the machine;
* `argsTyped_of_valuesHaveTypes` — the values that the search accepts;
* `Rule.TypedBy.equationAt` — instances of a rule whose proof has a type;
* `Scope.typed_evaluate`, `Scope.typed_justify` — the equation of a match, and
  that of the statement.
-/
import Pinpoint.Proofs.Enumeration
import Pinpoint.Proofs.TypedEquations

namespace Pinpoint

/-! ### Questions to a checker -/

namespace Checker

/-- Whether a checker that has drawn no variable yet infers the type of a term
within the widths of the machine. -/
structure InfersWithin (checker : Checker) (e : Expr) : Prop where
  room : Checker.firstFresh.toNat + e.openings checker.fuel < 2 ^ 64
  within : checker.env.inferTypeWithin checker.fuel checker.locals e Checker.firstFresh
  narrow : (checker.inferType e).resultPasses Checker.firstFresh fun T _ => decide T.Narrow

/-- Whether a checker that has drawn no variable yet takes a term for one of the
given type, within the widths of the machine. -/
structure AcceptsWithin (checker : Checker) (e type : Expr) : Prop where
  infers : checker.InfersWithin e
  accepts : ∃ T, (checker.inferType e).runFresh = some (.ok T) ∧
    checker.isDefEq .all T type = some true ∧
    checker.env.isDefEqWithin .all checker.fuel T type

section
variable (checker : Checker) (e type : Expr)

instance : Decidable (checker.InfersWithin e) :=
  decidable_of_iff
    (Checker.firstFresh.toNat + e.openings checker.fuel < 2 ^ 64 ∧
      checker.env.inferTypeWithin checker.fuel checker.locals e Checker.firstFresh ∧
      (checker.inferType e).resultPasses Checker.firstFresh fun T _ => decide T.Narrow)
    ⟨fun ⟨hroom, hwithin, hnarrow⟩ => ⟨hroom, hwithin, hnarrow⟩,
      fun h => ⟨h.room, h.within, h.narrow⟩⟩

instance : Decidable (checker.AcceptsWithin e type) :=
  decidable_of_iff
    (checker.InfersWithin e ∧ ∃ T ∈ ((checker.inferType e).runFresh.bind Except.toOption),
      checker.isDefEq .all T type = some true ∧
        checker.env.isDefEqWithin .all checker.fuel T type) <| by
    have hok : ∀ {T}, T ∈ (checker.inferType e).runFresh.bind Except.toOption ↔
        (checker.inferType e).runFresh = some (.ok T) := by
      intro T
      cases (checker.inferType e).runFresh with
      | none => simp
      | some r => cases r <;> simp [Except.toOption]
    simp only [hok]
    exact ⟨fun ⟨hinfers, haccepts⟩ => ⟨hinfers, haccepts⟩, fun h => ⟨h.infers, h.accepts⟩⟩

end

/-- Whether the types of values are inferred and compared within the widths of
the machine; `earlier` holds the values before them. -/
def valuesWithin (checker : Checker) (earlier : List Expr) : List Expr → List Expr → UInt64 → Bool
  | type :: types, v :: values, s =>
    checker.env.inferTypeWithin checker.fuel checker.locals v s &&
      (checker.inferType v).resultPasses s fun T t =>
        checker.env.isDefEqWithin .all checker.fuel T (type.instantiateRev earlier) &&
          valuesWithin checker (earlier ++ [v]) types values t
  | _, _, _ => true

end Checker

section
variable {checker : Checker} (henv : checker.env.Ground) {Γ : Locals} {e type T : Expr} {s : UInt64}
include henv

/-- What a checker infers. -/
theorem hasType_of_infersWithin (h : checker.InfersWithin e)
    (hΓ : Γ.Below Checker.firstFresh.toNat)
    (he : e.FVarsIn (Environment.Known checker.locals Γ Checker.firstFresh))
    (hT : (checker.inferType e).Returns Checker.firstFresh T s) :
    HasType henv.signature Γ [] e.term T.term ∧ T.Narrow :=
  ⟨Environment.inferType_hasType henv ⟨hΓ, he, h.within, h.room⟩ hT,
    of_decide_eq_true (hT.passes h.narrow)⟩

omit henv in
/-- A term whose type is inferred within the widths is narrow. -/
theorem narrow_of_infers {s' : UInt64} (hT : (checker.inferType e).Returns s T s')
    (hwithin : checker.env.inferTypeWithin checker.fuel checker.locals e s) : e.Narrow := by
  have hT : (checker.env.inferType checker.fuel checker.locals e).Returns s T s' := hT
  cases hfuel : checker.fuel with
  | zero =>
    rw [hfuel] at hT
    exact absurd hT Environment.not_inferType_zero_returns
  | succ n =>
    rw [hfuel] at hwithin
    exact Environment.narrow_of_inferTypeWithin hwithin

/-- What a checker accepts, and it is narrow. -/
theorem hasType_of_acceptsWithin (h : checker.AcceptsWithin e type)
    (hΓ : Γ.Below Checker.firstFresh.toNat)
    (he : e.FVarsIn (Environment.Known checker.locals Γ Checker.firstFresh)) :
    HasType henv.signature Γ [] e.term type.term ∧ e.Narrow := by
  obtain ⟨T, hT, hdef, hwithin⟩ := h.accepts
  obtain ⟨s, hT⟩ := CheckM.runFresh_eq_ok.mp hT
  exact ⟨(hasType_of_infersWithin henv h.infers hΓ he hT).1.conv
    (Environment.isDefEq_converts henv hdef hwithin), narrow_of_infers hT h.infers.within⟩

end

/-- Values that the search accepts are narrow, and have the types of their
variables. -/
theorem argsTyped_of_valuesHaveTypes {checker : Checker} (henv : checker.env.Ground) {Γ : Locals}
    {earlier types values : List Expr} {s s' : UInt64} (hΓ : Γ.Below s.toNat)
    (htypes : ∀ A ∈ types, A.Narrow) (hearlier : ∀ v ∈ earlier, v.Narrow)
    (hvalues : ∀ v ∈ values, v.FVarsIn (Environment.Known checker.locals Γ s))
    (hlen : types.length = values.length) (hfew : (earlier ++ values).length < 2 ^ 31)
    (h : (valuesHaveTypes checker (earlier.map some) types (values.map some)).run s =
      some (true, s'))
    (hwithin : checker.valuesWithin earlier types values s)
    (hroom : s.toNat + Substitution.draws checker.fuel (values.map some) < 2 ^ 64) :
    (∀ v ∈ values, v.Narrow) ∧ ArgsTyped henv.signature Γ [] (earlier.map Expr.term)
      (types.map Expr.term) (values.map Expr.term) := by
  induction types generalizing earlier values s with
  | nil =>
    obtain rfl := List.eq_nil_of_length_eq_zero hlen.symm
    exact ⟨List.forall_mem_nil _, trivial⟩
  | cons A types ih =>
    obtain _ | ⟨v, values⟩ := values
    · cases hlen
    · obtain ⟨T, t, hT, hdef, hrest⟩ := valuesHaveTypes_cons_some h
      rw [List.map_cons, Substitution.draws_cons] at hroom
      simp only [Option.elim_some] at hroom
      rw [Checker.valuesWithin, Bool.and_eq_true] at hwithin
      have hpass := hT.passes hwithin.2
      rw [Bool.and_eq_true] at hpass
      have hv := hvalues v List.mem_cons_self
      have hnarrow := narrow_of_infers hT hwithin.1
      have hlt : earlier.length < 2 ^ 31 := by
        rw [List.length_append] at hfew
        omega
      -- The value has the type that was inferred, and that is convertible with the one of
      -- the variable where the earlier values are put in.
      have htv := (Environment.inferType_hasType henv ⟨hΓ, hv, hwithin.1, by omega⟩ hT).conv
        (Environment.isDefEq_converts henv hdef hpass.1)
      rw [Expr.term_instantiateRev (htypes A List.mem_cons_self) hearlier hlt] at htv
      -- The later values are accepted with the rest of the supply.
      have ht : t.toNat = s.toNat + v.openings checker.fuel :=
        Environment.toNat_supply hT (by omega)
      have hih := @ih (earlier ++ [v]) values t (hΓ.mono (by omega))
        (fun B hB => htypes B (List.mem_cons_of_mem A hB))
        (fun w hw => (List.mem_append.mp hw).elim (hearlier w)
          fun hw => List.mem_singleton.mp hw ▸ hnarrow)
        (fun w hw => (hvalues w (List.mem_cons_of_mem v hw)).mono fun x hx => hx.mono (by omega))
        (Nat.succ.inj hlen) (by simpa using hfew) hrest hpass.2 (by omega)
      rw [List.map_append] at hih
      exact ⟨List.forall_mem_cons.mpr ⟨hnarrow, hih.1⟩, htv, hih.2⟩

/-! ### Rules -/

theorem Expr.narrow_telescope {e : Expr} (h : e.Narrow) :
    (∀ A ∈ e.telescope.1, A.Narrow) ∧ e.telescope.2.Narrow := by
  induction e with
  | mdata m e ih => exact ih h
  | pi info dom body _ ihb =>
    obtain ⟨htypes, hbody⟩ := ihb (narrow_pi h).2
    exact ⟨List.forall_mem_cons.mpr ⟨(narrow_pi h).1, htypes⟩, hbody⟩
  | _ => exact ⟨List.forall_mem_nil _, h⟩

theorem Expr.length_telescope_le_span (e : Expr) : e.telescope.1.length ≤ e.span := by
  induction e with
  | mdata m e ih => exact ih
  | pi info dom body _ ihb =>
    simp only [telescope, List.length_cons, span]
    omega
  | _ => exact Nat.zero_le _

/-- Whether the proof of a rule has the given type, which states the rule. -/
structure Rule.TypedBy (S : Signature) (Γ : Locals) (r : Rule) (T : Expr) : Prop where
  proof : HasType S Γ [] r.proof.term T.term
  sort : ∃ l, HasType S Γ [] T.term (.sort l)
  narrow : T.Narrow
  varTypes : r.varTypes = T.telescope.1
  statement : T.telescope.2.statement? = some r.statement

section
variable {env : Environment} {henv : env.Ground} {Γ Γ' : Locals} {r : Rule} {T : Expr}
  {vals : List Expr}

theorem Rule.TypedBy.weaken (h : r.TypedBy henv.signature Γ T)
    (hΓ : ∀ {x A}, Γ.type x = some A → Γ'.type x = some A) : r.TypedBy henv.signature Γ' T := by
  obtain ⟨l, hl⟩ := h.sort
  exact ⟨h.proof.weaken hΓ, ⟨l, hl.weaken hΓ⟩, h.narrow, h.varTypes, h.statement⟩

/-- An instance of a rule whose proof has a type, at values of the types of its
variables. -/
theorem Rule.TypedBy.equationAt (hprelude : env.ExtendsPrelude) (h : r.TypedBy henv.signature Γ T)
    (hvals : ∀ v ∈ vals, v.Narrow) (hlen : vals.length = r.varTypes.length)
    (hargs : ArgsTyped henv.signature Γ [] [] (r.varTypes.map Expr.term) (vals.map Expr.term)) :
    (r.equationAt vals).Typed henv.signature Γ := by
  obtain ⟨l, hl⟩ := h.sort
  have hproof := h.proof
  rw [← Term.subst_instances_nil T.term, T.term_telescope] at hl hproof
  rw [h.varTypes] at hargs
  have happ := hproof.mkApp hargs
  obtain ⟨l', hl'⟩ := hl.pis_universe hargs
  have hfew : vals.length < 2 ^ 31 := by
    rw [hlen, h.varTypes]
    exact Nat.lt_of_le_of_lt T.length_telescope_le_span h.narrow
  obtain ⟨hs, heq⟩ := typed_of_statement? hprelude h.statement (Expr.narrow_telescope h.narrow).2
    hvals hfew hl'
  refine Rule.typed_equationAt hprelude hs ?_
  rw [Expr.term_mkApp, ← heq]
  exact happ

end

/-! ### The way to the statement -/

section
variable {env : Environment} {henv : env.Ground} (hprelude : env.ExtendsPrelude) {Γ : Locals}
  {scope : Scope} {target : Expr} {side? : Option Side} {r : Rule} {m : Match} {eq eq₀ : Equation}
  {X : Term}

/-- The type of what is searched has the universe that it says it has, and is
narrow. -/
theorem Scope.hasType_type (hprelude : env.ExtendsPrelude)
    (hselect : Scope.select target side? = .ok scope) (hnarrow : target.Narrow)
    (htarget : HasType henv.signature Γ [] target.term X) :
    HasType henv.signature Γ [] scope.type.term (.sort scope.level.simplify) ∧
      scope.type.Narrow := by
  cases side? with
  | none =>
    obtain rfl : scope = whole target := select_eq_ok hselect
    exact ⟨.sort [] .zero, Nat.two_pow_pos 31⟩
  | some side =>
    obtain ⟨s, hs, rfl⟩ := select_eq_ok hselect
    have hcarrier := (Statement.typed hprelude hs hnarrow htarget).1.carrier
    have hc := (Statement.narrow_of_statement? hs hnarrow).1
    cases side
    · exact ⟨hcarrier, hc⟩
    · exact ⟨hcarrier, hc⟩

include hprelude

/-- The equation of a match is typed if the instance of its rule is, and the
motive is a function from the type of the match to that of what is searched. -/
theorem Scope.typed_evaluate (hinst : (r.equationAt m.values).Typed henv.signature Γ)
    (hnarrow : (r.equationAt m.values).statement.Narrow)
    (htype : HasType henv.signature Γ [] scope.type.term (.sort scope.level.simplify))
    (hmotive : ∀ body, m.path ≠ [] → scope.host.abstractAt? m.path = some body → body.Narrow ∧
      HasType henv.signature Γ [] (.lam (r.equationAt m.values).carrier.term body.term)
        (.pi (r.equationAt m.values).carrier.term scope.type.term))
    (h : scope.evaluate env r m = .ok eq₀) : eq₀.Typed henv.signature Γ := by
  obtain ⟨-, heq⟩ := evaluate_eq_ok h
  split at heq
  · exact heq ▸ hinst
  · rename_i hpath
    obtain ⟨body, hbody, rfl⟩ := heq
    obtain ⟨hbn, hlam⟩ := hmotive body hpath hbody
    have hparts := (Environment.narrow_mkApp.mp hnarrow).2
    exact hinst.under hprelude htype hlam hbn (hparts _ (by simp)) (hparts _ (by simp))

/-- The equation of the statement is typed if that of the match is, and its left
side is the statement. -/
theorem Scope.typed_justify (hselect : Scope.select target side? = .ok scope)
    (htn : target.Narrow) (htarget : HasType henv.signature Γ [] target.term X)
    (heq₀ : eq₀.Typed henv.signature Γ) (hnarrow : eq₀.statement.Narrow)
    (h : scope.justify env eq₀ = .ok eq) (hlhs : eq.lhs.term = target.term) :
    eq.Typed henv.signature Γ := by
  have heq := justify_eq_ok h
  cases side? with
  | none =>
    obtain rfl : scope = whole target := select_eq_ok hselect
    exact (show eq = eq₀ from heq) ▸ heq₀
  | some side =>
    obtain ⟨s, hs, rfl⟩ := select_eq_ok hselect
    obtain rfl : eq = eq₀.under s.carrier (s.withSide (.bvar 0) side) .prop .one := by
      cases side <;> exact heq
    obtain ⟨hsides, hstatement⟩ := Statement.typed hprelude hs htn htarget
    obtain ⟨hc, hl, hr⟩ := Statement.narrow_of_statement? hs htn
    have hbody := Statement.narrow_withSide hc hl hr (e := .bvar 0) (by decide) side
    have hparts := (Environment.narrow_mkApp.mp hnarrow).2
    have hln : eq₀.lhs.Narrow := hparts _ (by simp)
    have hrn : eq₀.rhs.Narrow := hparts _ (by simp)
    -- the left side of the equation of the match is the side that is searched
    have hside : eq₀.lhs.term = (s.side side).term := by
      refine Statement.Typed.side_inj (show (s.withSide eq₀.lhs side).term =
        (s.withSide (s.side side) side).term from ?_)
      rw [← hsides.term_inst_withSide, ← Expr.term_instantiate hbody hln, s.withSide_side,
        ← hstatement]
      exact hlhs
    have hcarrier := (hside ▸ hsides.hasType_side side).unique heq₀.lhs
    exact heq₀.under hprelude (show HasType _ _ _ Expr.prop.term _ from .sort [] .zero)
      ((hsides.motive hprelude side).conv (.pi hcarrier (.refl _))) hbody hln hrn

end

end Pinpoint
