/-
Types of functions at several arguments.

The checker applies a function to one argument at a time, so it instantiates the
quantifiers of the function's type one by one, the outermost one first.  For arguments
without loose variables this is what `instantiateRev` does at once; arguments with loose
variables are put in from the innermost quantifier outwards, each raised past the
quantifiers that are still there.

* `foldlM_atArg?_pis` — the quantifiers of a type, one argument at a time;
* `eq_of_infersFrom_mkApp` — the type that the checker gives to an application;
* `instantiateRev_one_at_a_time` — both orders in which variables are replaced.
-/
import Pinpoint.Proofs.Reflexivity

namespace Pinpoint

namespace Expr

variable {e : Expr} {doms : List (BinderInfo × Expr)} {earlier vals : List Expr}

/-- A term under quantifiers over variables of the given types, the first one outermost. -/
def pis (doms : List (BinderInfo × Expr)) (e : Expr) : Expr :=
  doms.foldr (fun dom body => .pi dom.1 dom.2 body) e

/-- What a type that quantifies over a variable says of an argument. -/
def atArg? : Expr → Expr → Option Expr
  | .pi _ _ body, v => some (body.instantiate v)
  | _, _ => none

/-- Quantifiers are instantiated one at a time, those outside first, as they are at once. -/
theorem foldlM_atArg?_pis (hlen : doms.length = vals.length)
    (hvals : ∀ v ∈ earlier ++ vals, v.Scoped 0 ∧ (pis doms e).nesting + v.nesting < 2 ^ 32) :
    vals.foldlM atArg? ((pis doms e).instantiateRev earlier) =
      some (e.instantiateRev (earlier ++ vals)) := by
  induction vals generalizing doms earlier with
  | nil =>
    obtain rfl := List.length_eq_zero_iff.mp hlen
    rw [List.append_nil]
    rfl
  | cons v vals ih =>
    obtain ⟨dom, doms, rfl⟩ := List.exists_cons_of_length_eq_add_one hlen
    have hnesting : (pis doms e).nesting + 1 ≤ (pis (dom :: doms) e).nesting := Nat.le_max_right _ _
    have hbody : ∀ w ∈ earlier ++ v :: vals,
        w.Scoped 0 ∧ (pis doms e).nesting + 1 + w.nesting < 2 ^ 32 := by
      intro w hw
      obtain ⟨hclosed, hdepth⟩ := hvals w hw
      exact ⟨hclosed, by omega⟩
    have hv := (hbody v (List.mem_append_right _ List.mem_cons_self)).2
    have harg : atArg? ((pis (dom :: doms) e).instantiateRev earlier) v =
        some ((pis doms e).instantiateRev (earlier ++ [v])) :=
      congrArg some (instantiate_mapVars_revVar
        (fun w hw => hbody w (List.mem_append_left _ hw)) (by omega) v)
    have happend : earlier ++ v :: vals = earlier ++ [v] ++ vals := List.append_cons ..
    rw [happend] at hbody ⊢
    rw [List.foldlM_cons, harg, Option.bind_eq_bind, Option.bind_some]
    refine ih (Nat.succ.inj hlen) fun w hw => ?_
    obtain ⟨hclosed, hdepth⟩ := hbody w hw
    exact ⟨hclosed, by omega⟩

end Expr

namespace Environment

open Pinpoint.Expr

variable {env : Environment} {Γ : LocalContext} {s t u : UInt64} {f F R T : Expr} {args : List Expr}

/-- The type of an application is what the type of the function says of the arguments, one
after the other. -/
theorem eq_of_infersFrom_mkApp (hf : env.InfersFrom Γ s f F u) (hR : args.foldlM atArg? F = some R)
    (h : env.InfersFrom Γ s (mkApp f args) T t) : T = R := by
  induction args generalizing f F u with
  | nil => exact (h.det hf).1.trans (Option.some.inj hR)
  | cons a args ih =>
    have h : env.InfersFrom Γ s (mkApp (.app f a) args) T t := h
    obtain ⟨G, v, hG⟩ := h.of_mkApp
    obtain ⟨F', _, _, _, body, _, hF', hpi, -, -, rfl⟩ := infersFrom_app_iff.mp hG
    obtain ⟨rfl, -⟩ := hF'.det hf
    rw [List.foldlM_cons, Option.bind_eq_bind, Option.bind_eq_some_iff] at hR
    obtain ⟨G, hG', hR⟩ := hR
    cases F' with
    | pi _ _ body' =>
      obtain rfl : body'.instantiate a = G := Option.some.inj hG'
      obtain ⟨-, rfl⟩ := Reduces.pi_inj hpi
      exact ih hG hR h
    | _ => cases hG'

end Environment

namespace Expr

/-- Variables that are replaced at once can be replaced one at a time: from the innermost
one outwards, each by its value raised past the binders that are still there, and for values
without loose variables also from the outermost one inwards, which is how the checker comes
to the type of a function's application. -/
theorem instantiateRev_one_at_a_time (e : Expr) (vals : List Expr) :
    ((∀ v ∈ vals, e.nesting + v.nesting < 2 ^ 32) →
      (∀ (j : Nat) (v : Expr), vals[j]? = some v → v.RaisableBy (j + e.nesting)) →
      e.instantiateRev vals =
        vals.zipIdx.foldr (fun p e => e.instantiate (p.1.lift (.ofNat p.2))) e) ∧
      ∀ doms : List (BinderInfo × Expr), doms.length = vals.length →
        (∀ v ∈ vals, v.Scoped 0 ∧ (pis doms e).nesting + v.nesting < 2 ^ 32) →
        vals.foldlM atArg? (pis doms e) = some (e.instantiateRev vals) ∧
          ∀ (env : Environment) (Γ : LocalContext) (f T : Expr) (s t u : UInt64),
            env.InfersFrom Γ s f (pis doms e) u → env.InfersFrom Γ s (mkApp f vals) T t →
              T = e.instantiateRev vals := by
  refine ⟨fun hdepth hroom => ?_, fun doms hlen hvals => ?_⟩
  · have houtwards := foldr_instantiate_eq_instantiateRev (k := 0) hdepth
      fun j v hj => (hroom j v hj).mono (by omega)
    have hlift : vals.map (lift (.ofNat 0)) = vals :=
      (List.map_congr_left fun v _ => lift_zero v).trans (List.map_id vals)
    rw [houtwards, hlift]
  · have hinwards : vals.foldlM atArg? ((pis doms e).instantiateRev []) =
        some (e.instantiateRev ([] ++ vals)) :=
      foldlM_atArg?_pis hlen hvals
    rw [instantiateRev_nil, List.nil_append] at hinwards
    exact ⟨hinwards, fun env Γ f T s t u hf => Environment.eq_of_infersFrom_mkApp hf hinwards⟩

namespace Applied

/-- A body under two binders that has a variable of each, by itself and under a binder of its
own, and a loose variable. -/
def body : Expr :=
  .app (.app (.bvar 1) (.bvar 0)) (.lam .default (.bvar 1) (.app (.bvar 2) (.bvar 4)))

/-- Two values with loose variables. -/
def loose : List Expr := [.bvar 2, .lam .default (.bvar 0) (.app (.bvar 0) (.bvar 6))]

/-- The level of the second universe. -/
def two : Level := .succ (.succ .zero)

/-- What reflexivity quantifies over. -/
def doms : List (BinderInfo × Expr) := [(.implicit, .sort two), (.default, .bvar 0)]

/-- What it says of them. -/
def equation : Expr := .mkEq two (.bvar 1) (.bvar 0) (.bvar 0)

/-- A universe, and a sort that is in it. -/
def sorts : List Expr := [.sort (.succ .zero), .prop]

theorem infersFrom_eqRefl : (⟨Prelude.constants⟩ : Environment).InfersFrom .empty 0
    (.const Vocabulary.eqRefl [two]) (pis doms equation) 0 :=
  ⟨1, rfl⟩

theorem infersFrom_eqRefl_sorts : (⟨Prelude.constants⟩ : Environment).InfersFrom .empty 0
    (mkApp (.const Vocabulary.eqRefl [two]) sorts)
    (.mkEq two (.sort (.succ .zero)) .prop .prop) 0 :=
  ⟨5, rfl⟩

end Applied

open Applied in
/-- Two values with loose variables are put into a body one at a time, and reflexivity is
applied to a universe and a sort. -/
theorem instantiateRev_one_at_a_time_eqRefl :
    body.instantiateRev loose =
        (body.instantiate (.lam .default (.bvar 1) (.app (.bvar 0) (.bvar 7)))).instantiate
          (.bvar 2) ∧
      sorts.foldlM atArg? (pis doms equation) = some (equation.instantiateRev sorts) ∧
      .mkEq two (.sort (.succ .zero)) .prop .prop = equation.instantiateRev sorts := by
  obtain ⟨houtwards, -⟩ := instantiateRev_one_at_a_time body loose
  obtain ⟨-, hinwards⟩ := instantiateRev_one_at_a_time equation sorts
  obtain ⟨htypes, hchecker⟩ := hinwards doms rfl (by decide)
  have hdepth : ∀ v ∈ loose, body.nesting + v.nesting < 2 ^ 32 := by decide
  have hroom : ∀ v ∈ loose, v.RaisableBy (1 + body.nesting) := by decide
  refine ⟨houtwards hdepth fun j v hj => ?_, htypes,
    hchecker _ _ _ _ _ _ _ infersFrom_eqRefl infersFrom_eqRefl_sorts⟩
  have hlt : j < 2 := (List.getElem?_eq_some_iff.mp hj).1
  exact (hroom v (List.mem_of_getElem? hj)).mono (by omega)

end Expr

end Pinpoint
