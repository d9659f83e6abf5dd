/-
Questions about a proof state, taken apart.

A question is answered, fails, or is not decided; the lemmas here turn the
answer or the failure of a composed question into those of its parts.  They
hold whatever the failures are, so also for the elaboration of one rule.
-/
import Pinpoint.Rewrite.Occurrence

namespace Pinpoint.QueryM

variable {ε α β : Type}

theorem run_bind_of_none {m : ExceptT ε Option α} (h : m.run = none) (f : α → ExceptT ε Option β) :
    (m >>= f).run = none := by
  rw [ExceptT.run_bind, h]
  rfl

theorem run_bind_of_error {m : ExceptT ε Option α} {e : ε} (h : m.run = some (.error e))
    (f : α → ExceptT ε Option β) : (m >>= f).run = some (.error e) := by
  rw [ExceptT.run_bind, h]
  rfl

theorem run_bind_of_ok {m : ExceptT ε Option α} {a : α} (h : m.run = some (.ok a))
    (f : α → ExceptT ε Option β) : (m >>= f).run = (f a).run := by
  rw [ExceptT.run_bind, h]
  rfl

theorem run_bind_eq_ok {m : ExceptT ε Option α} {f : α → ExceptT ε Option β} {b : β} :
    (m >>= f).run = some (.ok b) ↔ ∃ a, m.run = some (.ok a) ∧ (f a).run = some (.ok b) := by
  rw [ExceptT.run_bind]
  rcases m.run with _ | _ | a <;> simp

theorem not_run_throw_eq_ok {e : ε} {a : α} :
    (throw e : ExceptT ε Option α).run ≠ some (.ok a) := by
  simp

theorem run_pure_eq_ok {a b : α} :
    (pure a : ExceptT ε Option α).run = some (.ok b) ↔ a = b := by
  simp

theorem run_lift_eq_ok {o : Option α} {a : α} :
    (liftM o : ExceptT ε Option α).run = some (.ok a) ↔ o = some a := by
  show (ExceptT.lift o).run = _ ↔ _
  simp

theorem run_ofExcept (x : Except ε α) :
    (MonadExcept.ofExcept x : ExceptT ε Option α).run = some x := by
  cases x <;> rfl

theorem run_ofExcept_eq_ok {x : Except ε α} {a : α} :
    (MonadExcept.ofExcept x : ExceptT ε Option α).run = some (.ok a) ↔ x = .ok a := by
  rw [run_ofExcept, Option.some.injEq]

/-- An answer is known if it is known where failures are not told apart. -/
theorem run_eq_ok_of_toOption {m : ExceptT ε Option α} {a : α}
    (h : m.run.map Except.toOption = some (some a)) : m.run = some (.ok a) := by
  obtain ⟨_ | b, hrun, heq⟩ := Option.map_eq_some_iff.mp h
  · cases heq
  · rw [hrun, Option.some.inj heq]

@[simp] theorem mapError_error {ε' : Type} (f : ε → ε') (e : ε) :
    (Except.error e : Except ε α).mapError f = .error (f e) := rfl

@[simp] theorem mapError_ok {ε' : Type} (f : ε → ε') (a : α) :
    (Except.ok a : Except ε α).mapError f = .ok a := rfl

theorem run_adapt {ε' : Type} (f : ε → ε') (m : ExceptT ε Option α) :
    (ExceptT.adapt f m).run = m.run.map (Except.mapError f) := rfl

end Pinpoint.QueryM

/-- The main goal is the current one. -/
theorem Pinpoint.ProofState.mainGoal_eq_ok {st : ProofState} {g : Goal} :
    st.mainGoal.run = some (.ok g) ↔ st.currentGoal? = some g := by
  unfold mainGoal
  cases hg : st.currentGoal? with
  | none => simp
  | some g' => simp
