/-
Changes of a state.

A change asks questions about the state and sets parts of it, one after the other,
and may fail on its way; what it has set before that stays set.
-/

namespace Pinpoint

/-- Changes of a state, which may fail, or have no answer. -/
abbrev ChangeM (σ ε : Type) := ExceptT ε (StateT σ Option)

namespace ChangeM

variable {σ ε ε' α : Type}

/-- The answer of a change and the state after it. -/
abbrev answer (m : ChangeM σ ε α) (s : σ) : Option (Except ε α × σ) := m.run.run s

/-- The state that a change leads to, unless it fails. -/
def outcome (m : ChangeM σ ε Unit) (s : σ) : ExceptT ε Option σ :=
  ExceptT.mk ((m.answer s).map fun (r, s') => r.map fun _ => s')

/-- An answer that keeps the state. -/
def ofQuery (q : σ → ExceptT ε Option α) : ChangeM σ ε α := do
  match ← (q (← get)).run with
  | .ok a => return a
  | .error e => throw e

/-- What a change answers; its failure is no failure here. -/
def attempt (m : ChangeM σ ε α) : ChangeM σ ε' (Except ε α) := ExceptT.lift m.run

end ChangeM

end Pinpoint
