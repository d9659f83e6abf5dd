/-
Free variables that stand for other terms.

Rewritten hypotheses are free variables that `unfoldHyps` replaces by their
values, the latest first.  It leaves a term as it is that has none of them.

* `substFVars_eq_self` — terms without such variables stay as they are;
* `FVarsIn.substFVars_reverse` — if each value has older variables only, the oldest
  are left;
* `unfoldHyps_of_push` — a hypothesis that is rewritten is replaced first.
-/
import Mathlib.Data.List.Induction
import Pinpoint.Proof.State
import Pinpoint.Proofs.Heads
import Pinpoint.Proofs.Metavariables
import Pinpoint.Proofs.Weakening

namespace Pinpoint

namespace Expr

variable {p : FVarId → Prop} {e v : Expr} {x : FVarId} {σ : List (FVarId × Expr)}

/-! ### Replacing free variables -/

theorem substFVar_eq_self (h : e.FVarsIn fun y => y ≠ x) : e.substFVar x v = e := by
  unfold substFVar
  generalize (0 : UInt32) = d
  induction e generalizing d with
  | fvar y => exact if_neg h
  | app _ _ ihf iha => rw [mapVars, ihf h.1, iha h.2]
  | lam _ _ _ iht ihb | pi _ _ _ iht ihb => rw [mapVars, iht h.1, ihb h.2]
  | letE _ _ _ iht ihv ihb => rw [mapVars, iht h.1, ihv h.2.1, ihb h.2.2]
  | mdata _ _ ih => rw [mapVars, ih h]
  | _ => rfl

theorem FVarsIn.substFVar (h : e.FVarsIn fun y => y = x ∨ p y) (hv : v.FVarsIn p) :
    (e.substFVar x v).FVarsIn p := by
  refine FVarsIn.mapVars (f := fun _ i => .bvar i) (fun _ _ => trivial) (fun d y hy => ?_) h 0
  split
  · exact hv
  · rename_i hne
    exact hy.resolve_left hne

theorem Scoped.substFVar (h : e.Scoped 0) (hv : v.Scoped 0) : (e.substFVar x v).Scoped 0 := by
  refine Scoped.mapVars (f := fun _ i => .bvar i) (k := 0) (m := 0) (n := 0)
    (fun _ _ hi => hi) (fun k y => ?_) h
  split
  · exact hv.mono (Nat.zero_le _)
  · trivial

/-- The term with free variables replaced one after the other. -/
def substFVars (σ : List (FVarId × Expr)) (e : Expr) : Expr :=
  σ.foldl (fun e (x, v) => e.substFVar x v) e

/-- A term without the variables that are replaced stays as it is. -/
theorem substFVars_eq_self (h : e.FVarsIn fun y => y ∉ σ.map Prod.fst) : e.substFVars σ = e := by
  induction σ with
  | nil => rfl
  | cons xv σ ih =>
    have hx : e.substFVar xv.1 xv.2 = e :=
      substFVar_eq_self (h.mono fun y hy heq => hy (heq ▸ List.mem_cons_self))
    show (e.substFVar xv.1 xv.2).substFVars σ = e
    rw [hx]
    exact ih (h.mono fun y hy hmem => hy (List.mem_cons_of_mem _ hmem))

/-- If each variable that is replaced is the only new one, and its value has
older variables only, then the oldest are left once the latest are replaced
first. -/
theorem FVarsIn.substFVars_reverse {p : Nat → FVarId → Prop} {q : FVarId → Prop}
    (hσ : ∀ (j : Nat) (x : FVarId) (v : Expr), σ[j]? = some (x, v) →
      (∀ y, p (j + 1) y → y = x ∨ p j y) ∧ v.FVarsIn (p j))
    (h : e.FVarsIn fun y => p σ.length y ∨ q y) :
    (e.substFVars σ.reverse).FVarsIn fun y => p 0 y ∨ q y := by
  induction σ using List.reverseRecOn generalizing e with
  | nil => exact h
  | append_singleton σ xv ih =>
    obtain ⟨x, v⟩ := xv
    obtain ⟨hnew, hv⟩ := hσ σ.length x v (by simp)
    rw [List.reverse_append]
    refine ih (e := e.substFVar x v) (fun j y w hy => hσ j y w ?_) ?_
    · rw [List.getElem?_append_left (List.getElem?_eq_some_iff.mp hy).1, hy]
    · refine FVarsIn.substFVar (h.mono fun y hy => ?_) (hv.mono fun _ => .inl)
      rw [List.length_append, List.length_singleton] at hy
      exact hy.elim (fun hy => (hnew y hy).imp_right .inl) fun hy => .inr (.inr hy)

theorem Scoped.substFVars (h : e.Scoped 0) (hσ : ∀ x v, (x, v) ∈ σ → v.Scoped 0) :
    (e.substFVars σ).Scoped 0 := by
  induction σ generalizing e with
  | nil => exact h
  | cons xv σ ih =>
    exact ih (e := e.substFVar xv.1 xv.2) (h.substFVar (hσ _ _ List.mem_cons_self))
      fun y w hy => hσ y w (List.mem_cons_of_mem _ hy)

end Expr

/-! ### Rewritten hypotheses -/

namespace ProofState

open Pinpoint.Expr

variable {st st' : ProofState} {e : Expr} {x : FVarId} {v : Expr}

theorem unfoldHyps_eq (st : ProofState) (e : Expr) :
    st.unfoldHyps e = e.substFVars st.hypValues.reverse :=
  Eq.refl _

/-- A hypothesis that was rewritten stands for its value. -/
theorem unfoldHyps_of_push (h : st'.hypValues = st.hypValues ++ [(x, v)]) (e : Expr) :
    st'.unfoldHyps e = st.unfoldHyps (e.substFVar x v) := by
  rw [unfoldHyps_eq, h, List.reverse_append]
  rfl

theorem unfoldHyps_of_push_self (h : st'.hypValues = st.hypValues ++ [(x, v)]) :
    st'.unfoldHyps (.fvar x) = st.unfoldHyps v := by
  rw [unfoldHyps_of_push h]
  show st.unfoldHyps (if x = x then v else .fvar x) = _
  rw [if_pos (Eq.refl x)]

end ProofState

end Pinpoint
