/-
Computations that end once they have enough fuel.

An answer settles if all large amounts of fuel lead to it.  Answers that settle
can be put together: what is asked of a settled answer settles if it does for each
such answer, however much fuel it takes then.

* `Settles` — answers that settle, on something with a property;
* `Ends` — computations that draw variables and may fail, and end;
* `Settles.bind`, `Ends.bind` — one computation after the other;
* `declare_mono`, `declareAll_mono` — what is answered for a constant is answered
  with more fuel.
-/
import Pinpoint.Proofs.Freshness
import Pinpoint.Proofs.Reduction
import Pinpoint.Typing.Declaration

namespace Pinpoint

/-- Whether all large amounts of fuel lead to the same answer, and it is as
asked. -/
def Settles {α : Type} (o : Nat → Option α) (Q : α → Prop) : Prop :=
  ∃ n₀ a, (∀ n, n₀ ≤ n → o n = some a) ∧ Q a

namespace Settles

variable {α β : Type} {o : Nat → Option α} {Q R : α → Prop} {a : α}

theorem of_eq (n₀ : Nat) (h : ∀ n, n₀ ≤ n → o n = some a) (ha : Q a) : Settles o Q :=
  ⟨n₀, a, h, ha⟩

theorem pure (ha : Q a) : Settles (fun _ => some a) Q :=
  of_eq 0 (fun _ _ => rfl) ha

theorem mono (h : Settles o Q) (hQR : ∀ a, Q a → R a) : Settles o R := by
  obtain ⟨n₀, a, ho, ha⟩ := h
  exact ⟨n₀, a, ho, hQR a ha⟩

theorem congr {o' : Nat → Option α} (h : Settles o Q) (heq : ∀ n, o' n = o n) : Settles o' Q := by
  obtain rfl : o' = o := funext heq
  exact h

/-- What is known of every value is known of the one that is settled on. -/
theorem and (h : Settles o Q) (hR : ∀ n a, o n = some a → R a) :
    Settles o fun a => Q a ∧ R a := by
  obtain ⟨n₀, a, ho, ha⟩ := h
  exact ⟨n₀, a, ho, ha, hR n₀ a (ho n₀ (Nat.le_refl n₀))⟩

/-- What settles on one more unit of fuel settles. -/
theorem succ (h : Settles (fun n => o (n + 1)) Q) : Settles o Q := by
  obtain ⟨n₀, a, ho, ha⟩ := h
  refine ⟨n₀ + 1, a, fun n hn => ?_, ha⟩
  obtain ⟨n, rfl⟩ : ∃ k, n = k + 1 := ⟨n - 1, by omega⟩
  exact ho n (by omega)

theorem bind {f : Nat → α → Option β} {R : β → Prop} (h : Settles o Q)
    (hf : ∀ a, Q a → Settles (fun n => f n a) R) : Settles (fun n => (o n).bind (f n)) R := by
  obtain ⟨m, a, ho, ha⟩ := h
  obtain ⟨n, b, hb, hR⟩ := hf a ha
  refine ⟨max m n, b, fun k hk => ?_, hR⟩
  show (o k).bind (f k) = _
  rw [ho k (by omega)]
  exact hb k (by omega)

theorem map {f : α → β} {R : β → Prop} (h : Settles o Q) (hf : ∀ a, Q a → R (f a)) :
    Settles (fun n => (o n).map f) R := by
  refine (h.bind fun a ha => pure (hf a ha)).congr fun n => ?_
  cases o n <;> rfl

end Settles

/-- Whether a computation that begins with the supply `s` ends once it has enough
fuel, and its result, if it has one, is as asked. -/
def Ends {ε α : Type} (m : Nat → ExceptT ε Supply α) (s : UInt64) (Q : α → Prop) : Prop :=
  Settles (fun n => (m n).run.run s) fun r => ∀ a, r.1 = .ok a → Q a

namespace Ends

variable {ε α β : Type} {m : Nat → ExceptT ε Supply α} {s : UInt64} {Q : α → Prop} {a : α}

theorem pure (ha : Q a) : Ends (fun _ => (Pure.pure a : ExceptT ε Supply α)) s Q := by
  refine Settles.pure (a := (Except.ok a, s)) fun b hb => ?_
  obtain rfl := Except.ok.inj hb
  exact ha

theorem throw (e : ε) : Ends (fun _ => (MonadExcept.throw e : ExceptT ε Supply α)) s Q :=
  Settles.pure (a := (Except.error e, s)) nofun

theorem succ (h : Ends (fun n => m (n + 1)) s Q) : Ends m s Q := Settles.succ h

theorem bind {f : Nat → α → ExceptT ε Supply β} {R : β → Prop} (h : Ends m s Q)
    (hf : ∀ a t, Q a → Ends (fun n => f n a) t R) : Ends (fun n => m n >>= f n) s R := by
  have hrun : ∀ n, (m n >>= f n).run.run s =
      ((m n).run.run s).bind fun r => (ExceptT.bindCont (f n) r.1).run r.2 :=
    fun _ => rfl
  refine Settles.congr (Settles.bind h fun r hr => ?_) hrun
  obtain ⟨_ | a, t⟩ := r
  · exact Settles.pure nofun
  · exact hf a t (hr a rfl)

theorem lift {o : Nat → Option α} (h : Settles o Q) :
    Ends (fun n => (liftM (o n) : ExceptT ε Supply α)) s Q := by
  have hrun : ∀ n, (liftM (o n) : ExceptT ε Supply α).run.run s =
      (o n).map fun a => (Except.ok a, s) := by
    intro n
    cases o n <;> rfl
  refine Settles.congr (h.map fun a ha b hb => ?_) hrun
  obtain rfl := Except.ok.inj hb
  exact ha

theorem fresh : Ends (fun _ => (liftM Supply.fresh : ExceptT ε Supply FVarId)) s fun _ => True :=
  Settles.pure (a := (Except.ok (FVarId.mk s), s + 1)) fun _ _ => trivial

/-- What a computation that begins anew answers settles. -/
theorem run' (h : Ends m s Q) :
    Settles (fun n => (m n).run.run' s) fun r => ∀ a, r = .ok a → Q a :=
  Settles.map (f := Prod.fst) h fun _ hr => hr

end Ends

/-! ### More fuel -/

namespace Environment

open CheckM

variable {env : Environment} {m n : Nat}

theorem ensureSort_le (hmn : m ≤ n) (Γ : LocalContext) (e : Expr) :
    (Checker.ensureSort ⟨env, Γ, m⟩ e).Le (Checker.ensureSort ⟨env, Γ, n⟩ e) :=
  le_bind (inferType_le hmn Γ e) fun T => sortOfType_le hmn e T

theorem checkConstant_le (hmn : m ≤ n) (c : Constant) :
    (env.checkConstant m c).Le (env.checkConstant n c) := by
  refine le_bind (ensureSort_le hmn _ _) fun _ => ?_
  cases c.value with
  | none => exact Le.refl _
  | some v =>
    exact le_bind (inferType_le hmn _ _) fun _ =>
      le_bind (le_of_lift fun _ => isDefEq_mono hmn) fun _ => Le.refl _

/-- A constant that is accepted or refused is so with more fuel. -/
theorem declare_mono (hmn : m ≤ n) {c : Constant} {r : Except CheckError Environment}
    (h : env.declare m c = some r) : env.declare n c = some r := by
  unfold declare at h ⊢
  split at h
  · rwa [if_pos ‹_›]
  rw [if_neg ‹_›]
  split at h
  · rwa [if_pos ‹_›]
  · rw [if_neg ‹_›]
    obtain ⟨x, hx, rfl⟩ := Option.map_eq_some_iff.mp h
    exact Option.map_eq_some_iff.mpr ⟨x, (checkConstant_le hmn c).runFresh hx, rfl⟩

theorem declareAll_mono (hmn : m ≤ n) {cs : List Constant}
    {r : Environment × Except CheckError Unit} (h : env.declareAll m cs = some r) :
    env.declareAll n cs = some r := by
  induction cs generalizing env with
  | nil => exact h
  | cons c cs ih =>
    obtain ⟨x, hx, h⟩ := Option.bind_eq_some_iff.mp h
    refine Option.bind_eq_some_iff.mpr ⟨x, declare_mono hmn hx, ?_⟩
    cases x with
    | error e => exact h
    | ok env' => exact ih h

end Environment

end Pinpoint
