/-
Rewrites at a single location, taken apart.

The location is resolved, the selected occurrence is rewritten, and the state is
kept if either fails.  `nthRewrite_answer` is what the whole call does without
reflexivity: the rules are elaborated first.
-/
import Pinpoint.Proofs.Atomicity

namespace Pinpoint

/-- The rules that are given, for the current goal. -/
def ProofState.rulesFor (fuel : Nat) (st : ProofState) (specs : List RuleSpec) :
    QueryM (List Rule) := do
  st.elaborateRules fuel (← st.mainGoal) specs

/-- The state with the selected occurrence at a location rewritten. -/
def ProofState.rewriteAtLocation (fuel : Nat) (sel : Selection) (loc : Location)
    (st : ProofState) : QueryM ProofState :=
  ExceptT.adapt (RewriteError.at loc) do st.rewriteAt fuel sel (← st.resolve loc)

open ChangeM

/-- A rewrite at one statement leads to the state with the occurrence rewritten, or
keeps the state. -/
theorem Selection.answer_rewriteOne (fuel : Nat) (sel : Selection) (loc : Location)
    (st : ProofState) :
    (sel.rewriteOne fuel loc).answer st =
      (st.rewriteAtLocation fuel sel loc).run.map fun r =>
        match r with
        | .error e => (.error e, st)
        | .ok st' => (.ok ⟨[loc], []⟩, st') := by
  unfold rewriteOne ProofState.rewriteAtLocation
  rw [answer_bind, answer_adapt, answer_bind, answer_ofQuery, QueryM.run_adapt,
    ExceptT.run_bind]
  rcases (st.resolve loc).run with _ | _ | site
  · rfl
  · rfl
  · show Option.bind (Option.map _ ((RewriteM.rewriteAt fuel sel site).answer st)) _ =
      Option.map _ (Option.map _ (st.rewriteAt fuel sel site).run)
    rw [(RewriteM.atomic_rewriteAt fuel sel site).answer_eq]
    show Option.bind (Option.map _ (Option.map _ (st.rewriteAt fuel sel site).run)) _ = _
    rcases (st.rewriteAt fuel sel site).run with _ | _ | st' <;> rfl

/-- A rewrite at a single location without reflexivity: the rules are
elaborated, and then the occurrence is rewritten or the state is kept. -/
theorem nthRewrite_answer {fuel : Nat} {side : Option Side} {index : Nat}
    {specs : List RuleSpec} {loc : Location} {options : RewriteOptions} {st : ProofState}
    (hloc : loc ≠ .everywhere) (hrfl : options.tryRfl = false) :
    (nthRewrite fuel side index specs loc options).answer st =
      (st.rulesFor fuel specs).run.bind fun r =>
        match r with
        | .error e => some (.error e, st)
        | .ok rules =>
          (st.rewriteAtLocation fuel ⟨side, index, rules, options.maxDepth⟩ loc).run.map fun r =>
            match r with
            | .error e => (.error e, st)
            | .ok st' => (.ok ⟨[loc], []⟩, st') := by
  unfold nthRewrite
  rw [answer_bind, answer_ofQuery]
  show Option.bind (Option.map _ (st.rulesFor fuel specs).run) _ = _
  rcases (st.rulesFor fuel specs).run with _ | _ | rules
  · rfl
  · rfl
  · have hone : Selection.rewrite fuel ⟨side, index, rules, options.maxDepth⟩ loc =
        Selection.rewriteOne fuel ⟨side, index, rules, options.maxDepth⟩ loc := by
      cases loc with
      | everywhere => exact absurd rfl hloc
      | _ => rfl
    simp only [Option.map_some, Option.bind_some, hone, hrfl]
    rw [answer_bind, Selection.answer_rewriteOne]
    rcases (st.rewriteAtLocation fuel ⟨side, index, rules, options.maxDepth⟩ loc).run with
      _ | _ | st' <;> rfl

end Pinpoint
