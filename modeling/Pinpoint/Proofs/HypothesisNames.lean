/-
What a name stands for at a location and in a term.

A location finds the latest hypothesis that has the name.  A term finds the latest
entry of the context whose name is written like it, where the name has been read
from that of the hypothesis.  For an identifier these are the same hypothesis: it is
written for no name that was read from another text.

* `findName?_foldlM_push` — the latest of the entries that a context is built from;
* `findName?_of_hypContext?` — hypotheses and their context agree on identifiers;
* `runFresh_elaborate_ident_iff` — which identifiers stand for variables;
* `resolve_hyp_iff_elaborateIn` — an identifier is resolved as it is elaborated.
-/
import Pinpoint.Proofs.Identifiers
import Pinpoint.Proofs.Pasting
import Pinpoint.Proofs.Queries
import Pinpoint.Proofs.Rules

namespace Pinpoint

/-! ### The latest entry of a name -/

theorem LocalContext.findName?_push (Γ : LocalContext) (x : FVarId) (n : Name) (type : Expr)
    (text : String) : (Γ.push x n type).findName? text =
      if n.render = text then some ⟨x, n, type⟩ else Γ.findName? text := by
  simp only [push, findName?, List.find?_cons]
  by_cases h : n.render = text <;> simp [h]

section
variable {α : Type} {x : α → FVarId} {n : α → Name} {f : α → Option Expr}

/-- The latest of the entries that a context is built from hides the earlier ones. -/
theorem findName?_foldlM_push {l : List α} {Γ Γ' : LocalContext}
    (h : l.foldlM (fun Γ a => do return Γ.push (x a) (n a) (← f a)) Γ = some Γ')
    (text : String) : (Γ'.findName? text).map LocalEntry.fvar =
      ((l.reverse.find? fun a => (n a).render = text).map x).or
        ((Γ.findName? text).map LocalEntry.fvar) := by
  induction l generalizing Γ with
  | nil =>
    obtain rfl : Γ = Γ' := by simpa using h
    rfl
  | cons a l ih =>
    obtain ⟨type, -, h⟩ := foldlM_push_cons.mp h
    rw [ih h, LocalContext.findName?_push, List.reverse_cons, List.find?_append]
    by_cases ha : (n a).render = text
    · cases l.reverse.find? fun a => (n a).render = text <;> simp [ha]
    · cases l.reverse.find? fun a => (n a).render = text <;> simp [ha]

end

/-- Hypotheses and their context have the same latest variable of an identifier. -/
theorem findName?_of_hypContext? {st : ProofState} {g : Goal} {Γ : LocalContext} {s : String}
    (hΓ : st.hypContext? g = some Γ) (hs : Surface.isIdentifier s) :
    (Γ.findName? s).map LocalEntry.fvar = (g.findHyp? s).map Hypothesis.fvar := by
  have hname : (fun h : Hypothesis => decide ((Name.ofString h.name).render = s)) =
      fun h => decide (h.name = s) :=
    funext fun h => decide_eq_decide.mpr (Surface.render_ofString_eq_iff hs)
  rw [findName?_foldlM_push hΓ, hname, Goal.findHyp?]
  simp [LocalContext.empty, LocalContext.findName?]

/-! ### Identifiers in terms -/

namespace Elaboration

open ElabM

variable {env : Environment} {fuel : Nat} {Γ : LocalContext} {s : String} {x : FVarId}

/-- An identifier stands for a variable only if the context has the name: else it
stands for a constant, or for nothing. -/
theorem runFresh_elaborate_ident_iff {span : Surface.Span} (hs : s ≠ "_") :
    runFresh (elaborate env fuel Γ (.ident span s)) = some (.ok (.fvar x)) ↔
      (Γ.findName? s).map LocalEntry.fvar = some x := by
  rw [runFresh_eq_ok, elaborate, resolve, if_neg hs]
  cases hfind : Γ.findName? s with
  | some entry => simp [returns_pure]
  | none =>
    simp only [Option.map_none, reduceCtorEq, iff_false, not_exists]
    intro t h
    cases hconst : env.find? (.ofString s) with
    | none =>
      simp only [hconst] at h
      exact not_returns_throw h
    | some c =>
      simp only [hconst] at h
      obtain ⟨solved, u, -, h⟩ := returns_bind.mp h
      cases (returns_pure.mp h).1

end Elaboration

namespace Surface

/-- A text with one identifier is read as this identifier. -/
theorem exists_parse_of_ident {text s : String} {a b : Span}
    (h : tokenize text = .ok [⟨.ident s, a⟩, ⟨.eof, b⟩]) (hprop : s ≠ "Prop")
    (htype : s ≠ "Type") :
    isIdentifier s ∧ ∃ span, Term.parse text = .ok (.ident span s) := by
  have hs : isIdentifier s :=
    (tokenize_eq_ok_iff.mp ⟨_, h, rfl⟩ : Lexes text.toList [.ident s]).isIdentifier (by simp)
  have hread : (Term.ident .nowhere s).isReadable := by
    simp [Term.isReadable, Term.fits, hs, hprop, htype]
  have hkinds : kinds [⟨.ident s, a⟩, ⟨.eof, b⟩] = (Term.ident .nowhere s).tokens ++ [.eof] := rfl
  obtain ⟨t, ht, hbare⟩ := ofTokens_tokens hread hkinds
  refine ⟨hs, ?_⟩
  cases t with
  | ident span name =>
    obtain ⟨-, rfl⟩ := Term.ident.inj hbare
    exact ⟨span, by rw [Term.parse, h]; exact ht⟩
  | _ => cases hbare

end Surface

/-! ### Locations and terms -/

namespace ProofState

variable {st : ProofState} {g : Goal} {s : String} {x : FVarId}

theorem resolve_hyp_eq_ok (hg : st.currentGoal? = some g) {site : Site} :
    (st.resolve (.hyp s)).run = some (.ok site) ↔
      ∃ h, g.findHyp? s = some h ∧ site = .hyp h.fvar := by
  unfold resolve
  rw [QueryM.run_bind_of_ok (mainGoal_eq_ok.mpr hg)]
  cases hfind : g.findHyp? s with
  | none =>
    simp only [hfind]
    exact ⟨fun h => absurd h QueryM.not_run_throw_eq_ok, fun ⟨_, h, _⟩ => nomatch h⟩
  | some h =>
    simp only [hfind, QueryM.run_pure_eq_ok, Option.some.injEq, exists_eq_left']
    exact eq_comm

/-- A text that consists of one identifier, other than the two names of universes,
stands for a hypothesis in a term exactly if the identifier is one as a location, and
then for the same hypothesis.  Filling the holes in the types of the hypotheses has to
end, which it does unless a metavariable needs itself. -/
theorem resolve_hyp_iff_elaborateIn {text : String} {a b : Surface.Span} (fuel : Nat)
    (hg : st.currentGoal? = some g) (htypes : ∀ h ∈ g.hyps, (st.metas.instantiate? h.type).isSome)
    (htokens : Surface.tokenize text = .ok [⟨.ident s, a⟩, ⟨.eof, b⟩]) (hprop : s ≠ "Prop")
    (htype : s ≠ "Type") :
    ∃ t, Surface.Term.parse text = .ok t ∧ ∀ site,
      (st.resolve (.hyp s)).run = some (.ok site) ↔
        ∃ x, site = .hyp x ∧ (∃ h ∈ g.hyps, h.fvar = x) ∧
          st.elaborateIn fuel g t = some (.ok (.fvar x)) := by
  obtain ⟨hs, span, ht⟩ := Surface.exists_parse_of_ident htokens hprop htype
  obtain ⟨Γ, hΓ⟩ : ∃ Γ, st.hypContext? g = some Γ :=
    exists_foldlM_push_iff.mpr fun h hh => Option.isSome_iff_exists.mp (htypes h hh)
  have hunderscore : s ≠ "_" := by
    rintro rfl
    revert hs
    decide +kernel
  have helaborate : ∀ x, st.elaborateIn fuel g (.ident span s) = some (.ok (.fvar x)) ↔
      (g.findHyp? s).map Hypothesis.fvar = some x := by
    intro x
    rw [elaborateIn, hΓ, ← findName?_of_hypContext? hΓ hs,
      ← Elaboration.runFresh_elaborate_ident_iff hunderscore]
    rfl
  refine ⟨_, ht, fun site => ?_⟩
  simp only [resolve_hyp_eq_ok hg, helaborate, Option.map_eq_some_iff]
  constructor
  · rintro ⟨h, hfind, rfl⟩
    have hmem : h ∈ g.hyps := List.mem_reverse.mp (List.mem_of_find?_eq_some hfind)
    exact ⟨h.fvar, Eq.refl _, ⟨h, hmem, Eq.refl _⟩, h, hfind, Eq.refl _⟩
  · rintro ⟨x, rfl, -, h, hfind, rfl⟩
    exact ⟨h, hfind, Eq.refl _⟩

/-- Of two hypotheses of one name the later one is meant; the others have names that
no identifier is written for. -/
def shadowed : Goal :=
  ⟨⟨0⟩, .prop, [⟨⟨0⟩, "h", .prop, none⟩, ⟨⟨1⟩, "h.007", .prop, none⟩, ⟨⟨2⟩, "h", .type, none⟩,
    ⟨⟨3⟩, "", .prop, none⟩]⟩

def shadowing : ProofState := .start ⟨[]⟩ shadowed.target shadowed.hyps

theorem elaborateIn_shadowed : ∃ t, Surface.Term.parse "h -- the later one" = .ok t ∧
    (shadowing.resolve (.hyp "h")).run = some (.ok (.hyp ⟨2⟩)) ∧
      shadowing.elaborateIn 0 shadowed t = some (.ok (.fvar ⟨2⟩)) := by
  have htokens : Surface.tokenize "h -- the later one" =
      .ok [⟨.ident "h", ⟨0, 1⟩⟩, ⟨.eof, ⟨18, 18⟩⟩] :=
    (Surface.Cuts.step (l := ⟨.ident "h", ['h'], " -- the later one".toList⟩) (by rfl) (by rfl)
      (by rfl) (.done (by rfl) (by rfl))).tokenizeFrom
  have hresolve : (shadowing.resolve (.hyp "h")).run = some (.ok (.hyp ⟨2⟩)) := by decide +kernel
  have hgoal : shadowing.currentGoal? = some shadowed := Eq.refl _
  have htypes : ∀ h ∈ shadowed.hyps, (shadowing.metas.instantiate? h.type).isSome := by
    decide +kernel
  obtain ⟨t, ht, hsame⟩ := resolve_hyp_iff_elaborateIn 0 hgoal htypes htokens
    (by decide) (by decide)
  obtain ⟨x, hx, -, helaborate⟩ := (hsame (.hyp ⟨2⟩)).mp hresolve
  obtain rfl := Site.hyp.inj hx
  exact ⟨t, ht, hresolve, helaborate⟩

end ProofState

end Pinpoint
