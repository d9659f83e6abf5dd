/-
Definitional equality as a relation.

The comparison of two terms reduces them and compares what it finds, unless
they are the same term; then it does not reduce them at all, and has an answer
also where reduction would not end.

* `isDefEq_comm` — the order of the two terms does not matter, also not to
  whether the comparison ends;
* `Decides.det` — a comparison has one answer;
* `isDefEq_equivalence` — to be found equal is an equivalence relation.
-/
import Pinpoint.Proofs.Reduction

namespace Pinpoint.Environment

/-- Whether the comparison of two terms ends with the given answer. -/
def Decides (env : Environment) (t : Transparency) (a b : Expr) (r : Bool) : Prop :=
  ∃ n, env.isDefEq t n a b = some r

variable {env : Environment} {t : Transparency} {n : Nat} {a b c : Expr} {r r' : Bool}

theorem compareParts_comm {cmp : Expr → Expr → Option Bool} (hcmp : ∀ x y, cmp x y = cmp y x)
    (a b : Expr) : compareParts cmp a b = compareParts cmp b a := by
  have hparts : ∀ x y x' y' : Expr, (do if ← cmp x x' then cmp y y' else some false) =
      (do if ← cmp x' x then cmp y' y else some false) := by
    intro x y x' y'
    rw [hcmp x x', hcmp y y']
  cases a <;> cases b <;> simp only [compareParts, hparts] <;> simp only [eq_comm]

theorem isDefEq_comm (n : Nat) (a b : Expr) : env.isDefEq t n a b = env.isDefEq t n b a := by
  induction n generalizing a b with
  | zero => rfl
  | succ n ih =>
    simp only [isDefEq_succ, eq_comm (a := a), Option.bind_comm (a := env.whnf t n a)]
    congr 1
    refine Option.bind_congr fun b' _ => Option.bind_congr fun a' _ => ?_
    exact compareParts_comm ih a' b'

theorem Decides.det (h : env.Decides t a b r) (h' : env.Decides t a b r') : r = r' := by
  obtain ⟨m, h⟩ := h
  obtain ⟨n, h'⟩ := h'
  have h := isDefEq_mono (Nat.le_max_left m n) h
  have h' := isDefEq_mono (Nat.le_max_right m n) h'
  exact Option.some.inj (h.symm.trans h')

theorem Decides.symm (h : env.Decides t a b r) : env.Decides t b a r := by
  obtain ⟨n, h⟩ := h
  exact ⟨n, isDefEq_comm n a b ▸ h⟩

theorem Decides.trans (h : env.Decides t a b true) (h' : env.Decides t b c true) :
    env.Decides t a c true := by
  obtain ⟨m, h⟩ := h
  obtain ⟨n, h'⟩ := h'
  exact ⟨max m n, isDefEq_trans (isDefEq_mono (Nat.le_max_left m n) h)
    (isDefEq_mono (Nat.le_max_right m n) h')⟩

/-- To be found equal is an equivalence relation, at every transparency and for
terms of any kind; and to be found different is symmetric as well. -/
theorem isDefEq_equivalence (env : Environment) (t : Transparency) :
    Equivalence (fun a b => env.Decides t a b true) ∧
      ∀ a b r, env.Decides t a b r ↔ env.Decides t b a r :=
  ⟨⟨fun a => ⟨1, isDefEq_refl a⟩, Decides.symm, Decides.trans⟩,
    fun _ _ _ => ⟨Decides.symm, Decides.symm⟩⟩

end Pinpoint.Environment
