/-
Computations of the checker, taken apart.

A computation that has a result has one at each of its steps.  The lemmas
here turn the result of a composed computation into those of its parts, so
that no other proof has to unfold the monads: `Supply.run_…` for computations
that draw variables, and `CheckM.returns_…` for those that may also fail.

Two computations that are begun with supplies of their own go along with each
other (`Supply.Along`, `CheckM.Along`) if both run out of fuel, or both end
after as many draws, and with related results; so they do if their steps do.
-/
import Mathlib.Algebra.Group.Nat.Defs
import Pinpoint.Typing.Inference

namespace Pinpoint

namespace Supply

variable {α β : Type} {s s' : UInt64}

theorem run_bind_eq_some {m : Supply α} {f : α → Supply β} {b : β} :
    (m >>= f).run s = some (b, s') ↔
      ∃ a t, m.run s = some (a, t) ∧ (f a).run t = some (b, s') := by
  rw [StateT.run_bind]
  constructor
  · intro h
    obtain ⟨⟨a, t⟩, hm, h⟩ := Option.bind_eq_some_iff.mp h
    exact ⟨a, t, hm, h⟩
  · rintro ⟨a, t, hm, h⟩
    rw [hm]
    exact h

theorem run_pure_eq_some {a b : α} :
    (pure a : Supply α).run s = some (b, s') ↔ a = b ∧ s = s' := by
  rw [StateT.run_pure]
  simp

theorem run_lift_eq_some {o : Option α} {a : α} :
    (liftM o : Supply α).run s = some (a, s') ↔ o = some a ∧ s = s' := by
  show (o.bind fun a => some (a, s)) = some (a, s') ↔ _
  cases o <;> simp

/-- Draws that fit into a word are counted by it. -/
theorem toNat_add_ofNat {k : Nat} (h : s.toNat + k < 2 ^ 64) :
    (s + .ofNat k).toNat = s.toNat + k := by
  rw [UInt64.toNat_add, UInt64.toNat_ofNat']
  omega

theorem toNat_add_one (h : s.toNat + 1 < 2 ^ 64) : (s + 1).toNat = s.toNat + 1 :=
  toNat_add_ofNat h

theorem runFresh_eq_some {m : Supply α} {a : α} :
    m.runFresh = some a ↔ ∃ t, m.run Checker.firstFresh = some (a, t) := by
  show (m.run Checker.firstFresh).map Prod.fst = some a ↔ _
  simp

end Supply

namespace CheckM

variable {α β : Type} {s s' : UInt64}

/-- Whether a computation that begins with the supply `s` has the result `a`
and leaves the supply `s'`. -/
def Returns (m : CheckM α) (s : UInt64) (a : α) (s' : UInt64) : Prop :=
  m.run.run s = some (.ok a, s')

theorem returns_bind {m : CheckM α} {f : α → CheckM β} {b : β} :
    (m >>= f).Returns s b s' ↔ ∃ a t, m.Returns s a t ∧ (f a).Returns t b s' := by
  unfold Returns
  rw [ExceptT.run_bind, Supply.run_bind_eq_some]
  constructor
  · rintro ⟨_ | a, t, hm, h⟩
    · simp at h
    · exact ⟨a, t, hm, h⟩
  · rintro ⟨a, t, hm, h⟩
    exact ⟨.ok a, t, hm, h⟩

theorem returns_pure {a b : α} : (pure a : CheckM α).Returns s b s' ↔ a = b ∧ s = s' := by
  unfold Returns
  rw [ExceptT.run_pure, Supply.run_pure_eq_some, Except.ok.injEq]

theorem not_returns_throw {e : CheckError} {a : α} :
    ¬ (throw e : CheckM α).Returns s a s' := by
  unfold Returns
  simp

theorem returns_lift {o : Option α} {a : α} :
    (liftM o : CheckM α).Returns s a s' ↔ o = some a ∧ s = s' := by
  cases o with
  | none =>
    constructor
    · intro h
      cases (show (none : Option (Except CheckError α × UInt64)) = some (.ok a, s') from h)
    · rintro ⟨⟨⟩, -⟩
  | some b =>
    show some (Except.ok b, s) = some (Except.ok a, s') ↔ _
    simp

theorem returns_ofExcept {x : Except CheckError α} {a : α} :
    (MonadExcept.ofExcept x : CheckM α).Returns s a s' ↔ x = .ok a ∧ s = s' := by
  cases x with
  | error e =>
    constructor
    · intro h
      exact absurd h not_returns_throw
    · rintro ⟨⟨⟩, -⟩
  | ok b =>
    rw [Except.ok.injEq]
    exact returns_pure

/-- Drawing a variable gives the next one. -/
theorem returns_fresh {x : FVarId} :
    (liftM Supply.fresh : CheckM FVarId).Returns s x s' ↔ x = ⟨s⟩ ∧ s' = s + 1 := by
  show some (Except.ok (⟨s⟩ : FVarId), s + 1) = some (Except.ok x, s') ↔ _
  rw [Option.some.injEq, Prod.mk.injEq, Except.ok.injEq, eq_comm, @eq_comm _ (s + 1)]

/-- A guard that passes has no other effect. -/
theorem returns_guard {c : Prop} [Decidable c] {e : CheckError} {m : CheckM α}
    {f : PUnit → CheckM α} {a : α} :
    (if c then m else throw e >>= f).Returns s a s' ↔ c ∧ m.Returns s a s' := by
  by_cases hc : c
  · rw [if_pos hc]
    exact ⟨fun h => ⟨hc, h⟩, fun h => h.2⟩
  · rw [if_neg hc, returns_bind]
    constructor
    · rintro ⟨_, _, h, -⟩
      exact absurd h not_returns_throw
    · rintro ⟨h, -⟩
      exact absurd h hc

/-! ### More fuel -/

/-- Whether a computation gives every answer, also every error, that another
one gives. -/
def Le (m m' : CheckM α) : Prop := ∀ s r, m.run.run s = some r → m'.run.run s = some r

theorem Le.refl (m : CheckM α) : m.Le m := fun _ _ h => h

theorem le_of_lift {o o' : Option α} (h : ∀ a, o = some a → o' = some a) :
    (liftM o : CheckM α).Le (liftM o') := by
  intro s r hr
  cases o with
  | none => cases (show (none : Option (Except CheckError α × UInt64)) = some r from hr)
  | some a =>
    rw [h a rfl]
    exact hr

theorem le_bind {m m' : CheckM α} {f f' : α → CheckM β} (hm : m.Le m')
    (hf : ∀ a, (f a).Le (f' a)) : (m >>= f).Le (m' >>= f') := by
  intro s r h
  rw [ExceptT.run_bind] at h ⊢
  obtain ⟨x, t, hx, h⟩ := Supply.run_bind_eq_some.mp h
  refine Supply.run_bind_eq_some.mpr ⟨x, t, hm s _ hx, ?_⟩
  cases x with
  | error e => exact h
  | ok a => exact hf a t _ h

theorem Le.returns {m m' : CheckM α} {a : α} (h : m.Le m') (hm : m.Returns s a s') :
    m'.Returns s a s' :=
  h s _ hm

theorem Le.runFresh {m m' : CheckM α} {r : Except CheckError α} (h : m.Le m')
    (hm : m.runFresh = some r) : m'.runFresh = some r := by
  obtain ⟨t, ht⟩ := Supply.runFresh_eq_some.mp hm
  exact Supply.runFresh_eq_some.mpr ⟨t, h _ _ ht⟩

theorem runFresh_eq_ok {m : CheckM α} {a : α} :
    m.runFresh = some (.ok a) ↔ ∃ t, m.Returns Checker.firstFresh a t :=
  Supply.runFresh_eq_some

end CheckM

/-! ### Side by side -/

theorem add_ofNat_add (s : UInt64) (i j : Nat) :
    s + .ofNat (i + j) = s + .ofNat i + .ofNat j := by
  rw [UInt64.add_assoc, UInt64.ofNat_add]

/-- Whether two computations, begun with supplies of their own, both run out of
fuel, or both end after the same number of draws, at most `k`, and with related
results. -/
def Supply.Along {α β : Type} (R : α → β → Prop) (k : Nat) (m : Supply α) (s : UInt64)
    (m' : Supply β) (s' : UInt64) : Prop :=
  (m.run s = none ∧ m'.run s' = none) ∨
    ∃ i ≤ k, ∃ a b, R a b ∧ m.run s = some (a, s + .ofNat i) ∧ m'.run s' = some (b, s' + .ofNat i)

namespace Supply.Along

variable {α β γ δ : Type} {R R' : α → β → Prop} {Q : γ → δ → Prop} {k l : Nat} {s s' : UInt64}

theorem mono {m : Supply α} {m' : Supply β} (h : Along R k m s m' s') (hkl : k ≤ l)
    (hR : ∀ a b, R a b → R' a b) : Along R' l m s m' s' := by
  refine h.imp_right ?_
  rintro ⟨i, hi, a, b, hab, hm, hm'⟩
  exact ⟨i, Nat.le_trans hi hkl, a, b, hR a b hab, hm, hm'⟩

theorem pure {a : α} {b : β} (hab : R a b) :
    Along R 0 (Pure.pure a : Supply α) s (Pure.pure b : Supply β) s' :=
  .inr ⟨0, Nat.le_refl 0, a, b, hab, by rw [StateT.run_pure]; simp, by rw [StateT.run_pure]; simp⟩

theorem bind {m : Supply α} {m' : Supply β} {f : α → Supply γ} {f' : β → Supply δ}
    (hm : Along R k m s m' s')
    (hf : ∀ i ≤ k, ∀ a b, R a b → m.run s = some (a, s + .ofNat i) →
      Along Q l (f a) (s + .ofNat i) (f' b) (s' + .ofNat i)) :
    Along Q (k + l) (m >>= f) s (m' >>= f') s' := by
  rcases hm with ⟨hm, hm'⟩ | ⟨i, hi, a, b, hab, hm, hm'⟩
  · exact .inl ⟨by rw [StateT.run_bind, hm]; rfl, by rw [StateT.run_bind, hm']; rfl⟩
  · have hbind : (m >>= f).run s = (f a).run (s + .ofNat i) := by
      rw [StateT.run_bind, hm]
      rfl
    have hbind' : (m' >>= f').run s' = (f' b).run (s' + .ofNat i) := by
      rw [StateT.run_bind, hm']
      rfl
    rcases hf i hi a b hab hm with ⟨hfa, hfb⟩ | ⟨j, hj, c, d, hcd, hfa, hfb⟩
    · exact .inl ⟨hbind.trans hfa, hbind'.trans hfb⟩
    · refine .inr ⟨i + j, Nat.add_le_add hi hj, c, d, hcd, ?_, ?_⟩
      · rw [hbind, hfa, add_ofNat_add]
      · rw [hbind', hfb, add_ofNat_add]

end Supply.Along

/-- Whether both fail, or both have related results. -/
def CheckM.Related {α β : Type} (R : α → β → Prop) :
    Except CheckError α → Except CheckError β → Prop
  | .ok a, .ok b => R a b
  | .error _, .error _ => True
  | _, _ => False

/-- The same for computations that may fail; nothing is asked of the errors. -/
def CheckM.Along {α β : Type} (R : α → β → Prop) (k : Nat) (m : CheckM α) (s : UInt64)
    (m' : CheckM β) (s' : UInt64) : Prop :=
  Supply.Along (CheckM.Related R) k m.run s m'.run s'

namespace CheckM.Along

variable {α β γ δ : Type} {R R' : α → β → Prop} {Q : γ → δ → Prop} {k l : Nat} {s s' : UInt64}

theorem mono {m : CheckM α} {m' : CheckM β} (h : Along R k m s m' s') (hkl : k ≤ l)
    (hR : ∀ a b, R a b → R' a b) : Along R' l m s m' s' := by
  refine Supply.Along.mono h hkl fun x y hxy => ?_
  cases x <;> cases y
  · trivial
  · exact hxy
  · exact hxy
  · exact hR _ _ hxy

theorem pure {a : α} {b : β} (hab : R a b) :
    Along R 0 (Pure.pure a : CheckM α) s (Pure.pure b : CheckM β) s' :=
  Supply.Along.pure (R := Related R) hab

theorem throw (e e' : CheckError) :
    Along R 0 (MonadExcept.throw e : CheckM α) s (MonadExcept.throw e' : CheckM β) s' :=
  Supply.Along.pure (R := Related R) (a := .error e) (b := .error e') trivial

theorem bind {m : CheckM α} {m' : CheckM β} {f : α → CheckM γ} {f' : β → CheckM δ}
    (hm : Along R k m s m' s')
    (hf : ∀ i ≤ k, ∀ a b, R a b → m.Returns s a (s + .ofNat i) →
      Along Q l (f a) (s + .ofNat i) (f' b) (s' + .ofNat i)) :
    Along Q (k + l) (m >>= f) s (m' >>= f') s' := by
  refine Supply.Along.bind hm fun i hi x y hxy hx => ?_
  cases x <;> cases y
  · exact (CheckM.Along.throw (R := Q) _ _).mono (Nat.zero_le l) fun _ _ => id
  · cases hxy
  · cases hxy
  · exact hf i hi _ _ hxy hx

/-- A first step that draws nothing. -/
theorem bind_still {m : CheckM α} {m' : CheckM β} {f : α → CheckM γ} {f' : β → CheckM δ}
    (hm : Along R 0 m s m' s') (hf : ∀ a b, R a b → m.Returns s a s → Along Q l (f a) s (f' b) s') :
    Along Q l (m >>= f) s (m' >>= f') s' := by
  have hzero : ∀ s : UInt64, s + .ofNat 0 = s := UInt64.add_zero
  have h : Along Q (0 + l) (m >>= f) s (m' >>= f') s' := by
    refine bind hm fun i hi a b hab ha => ?_
    obtain rfl := Nat.le_zero.mp hi
    rw [hzero] at ha ⊢
    rw [hzero]
    exact hf a b hab ha
  rwa [Nat.zero_add] at h

/-- A question that is asked without drawing variables. -/
theorem bind_lift {o : Option α} {o' : Option β} {g : α → β} {f : α → CheckM γ}
    {f' : β → CheckM δ} (ho : o' = o.map g)
    (hf : ∀ a, o = some a → Along Q l (f a) s (f' (g a)) s') :
    Along Q l (liftM o >>= f) s (liftM o' >>= f') s' := by
  subst ho
  cases o with
  | none => exact .inl ⟨rfl, rfl⟩
  | some a => exact hf a rfl

/-- A guard that both pass or neither. -/
theorem guard {c c' : Bool} {e e' : CheckError} {m : CheckM γ} {m' : CheckM δ}
    {f : PUnit → CheckM γ} {f' : PUnit → CheckM δ} (hc : c' = c) (hm : Along Q l m s m' s') :
    Along Q l (if c then m else MonadExcept.throw e >>= f) s
      (if c' then m' else MonadExcept.throw e' >>= f') s' := by
  subst hc
  cases c' with
  | true => exact hm
  | false => exact (CheckM.Along.throw (R := Q) e e').mono (Nat.zero_le l) fun _ _ => id

/-- Each draws the next variable of its own supply. -/
theorem bind_fresh {f : FVarId → CheckM γ} {f' : FVarId → CheckM δ}
    (hf : Along Q l (f ⟨s⟩) (s + 1) (f' ⟨s'⟩) (s' + 1)) :
    Along Q (1 + l) (liftM Supply.fresh >>= f) s (liftM Supply.fresh >>= f') s' := by
  have hbind : ∀ {ζ : Type} (g : FVarId → CheckM ζ) (t : UInt64),
      (liftM Supply.fresh >>= g : CheckM ζ).run.run t = (g ⟨t⟩).run.run (t + 1) := fun _ _ => rfl
  rcases hf with ⟨hf, hf'⟩ | ⟨j, hj, c, d, hcd, hf, hf'⟩
  · exact .inl ⟨(hbind f s).trans hf, (hbind f' s').trans hf'⟩
  · refine .inr ⟨1 + j, Nat.add_le_add_left hj 1, c, d, hcd, ?_, ?_⟩
    · rw [hbind, hf, add_ofNat_add]
      rfl
    · rw [hbind, hf', add_ofNat_add]
      rfl

end CheckM.Along

end Pinpoint
