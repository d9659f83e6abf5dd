/-
Environments that extend the prelude.

The constants of the prelude are declared in order and pass every check, and
no later declaration takes their names.  So a constant of the prelude is found
in every environment that extends it, with the type that is written there.
-/
import Pinpoint.Prelude
import Pinpoint.Proofs.Renaming
import Pinpoint.Proofs.ScopedInference

namespace Pinpoint

namespace Environment

/-- Environments built from the prelude by checked declarations. -/
structure ExtendsPrelude (env : Environment) : Prop where
  checked : env.Checked
  constants : Prelude.constants <+: env.constants

theorem declareAll_prelude :
    empty.declareAll 50 Prelude.constants = some (⟨Prelude.constants⟩, .ok ()) := by
  rfl

theorem checked_prelude : Checked ⟨Prelude.constants⟩ :=
  of_declareAll .declare .empty declareAll_prelude

/-- The prelude extends itself. -/
theorem extendsPrelude_prelude : ExtendsPrelude ⟨Prelude.constants⟩ :=
  ⟨checked_prelude, List.prefix_rfl⟩

/-- No constant of the prelude has a free variable, so none has one if the
constants after the prelude are without values and their types are closed. -/
theorem fvarFree_prelude_append {cs : List Constant}
    (hcs : ∀ c ∈ cs, c.type.FVarsIn (fun _ => False) ∧ c.value = none) :
    FVarFree ⟨Prelude.constants ++ cs⟩ := by
  have hprelude : ∀ c ∈ Prelude.constants, c.type.FVarsIn (fun _ => False) ∧ c.value = none := by
    decide
  intro c hc
  obtain ⟨htype, hvalue⟩ := (List.mem_append.mp hc).elim (hprelude c) (hcs c)
  refine ⟨htype, fun v hv => ?_⟩
  rw [hvalue] at hv
  cases hv

theorem fvarFree_prelude : FVarFree ⟨Prelude.constants⟩ :=
  List.append_nil Prelude.constants ▸ fvarFree_prelude_append nofun

variable {env env' : Environment} {fuel : Nat} {c : Constant}

/-- A checked declaration keeps the prelude. -/
theorem ExtendsPrelude.declare (henv : env.ExtendsPrelude)
    (h : env.declare fuel c = some (.ok env')) : env'.ExtendsPrelude := by
  obtain ⟨-, rfl, -⟩ := declare_eq_ok h
  exact ⟨henv.checked.declare h, henv.constants.trans (List.prefix_append _ _)⟩

/-- A constant of the prelude is found as it is written there. -/
theorem ExtendsPrelude.find?_eq (henv : env.ExtendsPrelude) {n : Name}
    (h : Environment.find? ⟨Prelude.constants⟩ n = some c) : env.find? n = some c := by
  obtain ⟨rest, hrest⟩ := henv.constants
  unfold find? at h ⊢
  rw [← hrest, List.find?_append, h]
  rfl

end Environment

end Pinpoint
