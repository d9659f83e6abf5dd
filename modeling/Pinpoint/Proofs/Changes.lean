/-
Changes that happen in full or not at all.

A change is atomic if the state is as it was whenever the change fails.  Questions
never change the state and the steps that only set a part of it never fail, so a
change is atomic that asks all its questions before it sets anything.

* `answer_bind`, `answer_ofQuery` — changes, taken apart; `cases_of_answer_bind` has
  the ways in which two changes one after the other can end;
* `Asks.bind_atomic`, `NeverFails.atomic` — questions first, and then steps that never
  fail;
* `Atomic.answer_eq` — an atomic change is known from the states that it leads to;
* `Keeps.bind`, `Atomic.keeps` — what holds of the states that changes lead to.
-/
import Pinpoint.Change

namespace Pinpoint.ChangeM

variable {σ ε ε' α β : Type} {m : ChangeM σ ε α} {f : α → ChangeM σ ε β} {s : σ}

/-! ### Changes, taken apart -/

theorem answer_bind (m : ChangeM σ ε α) (f : α → ChangeM σ ε β) :
    ChangeM.answer (m >>= f) s = (m.answer s).bind fun p =>
      match p with
      | (.ok a, s') => (f a).answer s'
      | (.error e, s') => some (.error e, s') := by
  unfold answer
  rw [ExceptT.run_bind, StateT.run_bind]
  rcases m.run.run s with _ | ⟨_ | a, s'⟩ <;> rfl

/-- Of two changes one after the other, the first fails, or the second goes on where
the first has led to. -/
theorem cases_of_answer_bind {r : Except ε β} {s'' : σ}
    (h : ChangeM.answer (m >>= f) s = some (r, s'')) :
    (∃ e, m.answer s = some (.error e, s'') ∧ r = .error e) ∨
      ∃ a s', m.answer s = some (.ok a, s') ∧ (f a).answer s' = some (r, s'') := by
  rw [answer_bind] at h
  obtain ⟨⟨e | a, s'⟩, hs', h⟩ := Option.bind_eq_some_iff.mp h
  · obtain ⟨rfl, rfl⟩ := Prod.mk.inj (Option.some.inj h)
    exact .inl ⟨e, hs', rfl⟩
  · exact .inr ⟨a, s', hs', h⟩

theorem answer_lift (o : Option α) :
    ChangeM.answer (liftM o : ChangeM σ ε α) s = o.map fun a => (.ok a, s) := by
  cases o <;> rfl

theorem answer_tryCatch (m : ChangeM σ ε α) (h : ε → ChangeM σ ε α) (s : σ) :
    ChangeM.answer (tryCatch m h) s = (m.answer s).bind fun p =>
      match p with
      | (.ok a, s') => some (.ok a, s')
      | (.error e, s') => (h e).answer s' := by
  show Option.bind (m.answer s) _ = _
  rcases m.answer s with _ | ⟨_ | a, s'⟩ <;> rfl

theorem answer_adapt (g : ε → ε') (m : ChangeM σ ε α) :
    ChangeM.answer (ExceptT.adapt g m : ChangeM σ ε' α) s =
      (m.answer s).map fun (r, s') => (r.mapError g, s') := by
  show Option.bind (m.answer s) _ = _
  rcases m.answer s with _ | ⟨r, s'⟩ <;> rfl

theorem answer_attempt (m : ChangeM σ ε' α) :
    ChangeM.answer (attempt m : ChangeM σ ε (Except ε' α)) s =
      (m.answer s).map fun (r, s') => (.ok r, s') := by
  show Option.bind (m.answer s) _ = _
  rcases m.answer s with _ | ⟨r, s'⟩ <;> rfl

/-- A question leaves the state that it is asked in. -/
theorem answer_ofQuery (q : σ → ExceptT ε Option α) :
    (ofQuery q).answer s = (q s).run.map fun r => (r, s) := by
  unfold ofQuery
  rw [answer_bind]
  show ChangeM.answer (_ >>= _) s = _
  rw [answer_bind, answer_lift]
  rcases (q s).run with _ | _ | a <;> rfl

theorem run_outcome (m : ChangeM σ ε Unit) :
    (m.outcome s).run = (m.answer s).map fun (r, s') => r.map fun _ => s' := rfl

/-! ### Questions -/

/-- Whether a change leaves the state as it is. -/
def Asks (m : ChangeM σ ε α) : Prop :=
  ∀ ⦃s r s'⦄, m.answer s = some (r, s') → s' = s

theorem asks_pure (a : α) : Asks (pure a : ChangeM σ ε α) := by
  intro s r s' h
  exact (Prod.mk.inj (Option.some.inj h)).2.symm

theorem asks_throw (e : ε) : Asks (throw e : ChangeM σ ε α) := by
  intro s r s' h
  exact (Prod.mk.inj (Option.some.inj h)).2.symm

theorem asks_get : Asks (get : ChangeM σ ε σ) := by
  intro s r s' h
  exact (Prod.mk.inj (Option.some.inj h)).2.symm

theorem asks_lift (o : Option α) : Asks (liftM o : ChangeM σ ε α) := by
  intro s r s' h
  rw [answer_lift] at h
  obtain ⟨a, -, h⟩ := Option.map_eq_some_iff.mp h
  exact (Prod.mk.inj h).2.symm

theorem asks_ofQuery (q : σ → ExceptT ε Option α) : (ofQuery q).Asks := by
  intro s r s' h
  rw [answer_ofQuery] at h
  obtain ⟨a, -, h⟩ := Option.map_eq_some_iff.mp h
  exact (Prod.mk.inj h).2.symm

/-! ### Steps that never fail -/

/-- Whether a change never fails. -/
def NeverFails (m : ChangeM σ ε α) : Prop :=
  ∀ ⦃s e s'⦄, m.answer s ≠ some (.error e, s')

theorem neverFails_pure (a : α) : NeverFails (pure a : ChangeM σ ε α) := nofun

theorem neverFails_set (s : σ) : NeverFails (set s : ChangeM σ ε PUnit) := nofun

theorem neverFails_modify (g : σ → σ) : NeverFails (modify g : ChangeM σ ε PUnit) := nofun

theorem NeverFails.bind (hm : m.NeverFails) (hf : ∀ a, (f a).NeverFails) :
    NeverFails (m >>= f) := by
  intro s e s'' h
  rcases cases_of_answer_bind h with ⟨e', hs', -⟩ | ⟨a, s', -, h⟩
  · exact hm hs'
  · exact hf a h

/-! ### Atomic changes -/

/-- Whether the state is as it was whenever a change fails. -/
def Atomic (m : ChangeM σ ε α) : Prop :=
  ∀ ⦃s e s'⦄, m.answer s = some (.error e, s') → s' = s

theorem Asks.atomic (hm : m.Asks) : m.Atomic := by
  intro s e s' h
  exact hm h

theorem NeverFails.atomic (hm : m.NeverFails) : m.Atomic := by
  intro s e s' h
  exact absurd h (@hm s e s')

/-- Questions may be asked before an atomic change. -/
theorem Asks.bind_atomic (hm : m.Asks) (hf : ∀ a, (f a).Atomic) : Atomic (m >>= f) := by
  intro s e s'' h
  rcases cases_of_answer_bind h with ⟨e', hs', -⟩ | ⟨a, s', hs', h⟩
  · exact hm hs'
  · exact (hf a h).trans (hm hs')

/-- Steps that never fail may follow an atomic change. -/
theorem Atomic.bind_neverFails (hm : m.Atomic) (hf : ∀ a, (f a).NeverFails) :
    Atomic (m >>= f) := by
  intro s e s'' h
  rcases cases_of_answer_bind h with ⟨e', hs', -⟩ | ⟨a, s', -, h⟩
  · exact hm hs'
  · exact absurd h (@hf a s' e s'')

theorem Atomic.adapt {g : ε → ε'} (hm : m.Atomic) :
    Atomic (ExceptT.adapt g m : ChangeM σ ε' α) := by
  intro s e s' h
  rw [answer_adapt] at h
  obtain ⟨⟨_ | a, s''⟩, hs'', h⟩ := Option.map_eq_some_iff.mp h
  · obtain ⟨-, rfl⟩ := Prod.mk.inj h
    exact hm hs''
  · cases (Prod.mk.inj h).1

/-- An atomic change leads to a state, or fails and leaves the state as it was. -/
theorem Atomic.answer_eq {m : ChangeM σ ε Unit} (hm : m.Atomic) (s : σ) :
    m.answer s = (m.outcome s).run.map fun r =>
      match r with
      | .ok s' => (.ok (), s')
      | .error e => (.error e, s) := by
  rw [run_outcome]
  rcases h : m.answer s with _ | ⟨e | a, s'⟩
  · rfl
  · rw [hm h]
    rfl
  · rfl

/-! ### What a change keeps -/

section
variable {J : σ → Prop}

/-- Whether a property of states outlives a change, however it ends. -/
def Keeps (J : σ → Prop) (m : ChangeM σ ε α) : Prop :=
  ∀ ⦃s r s'⦄, m.answer s = some (r, s') → J s → J s'

theorem Asks.keeps (hm : m.Asks) : m.Keeps J := by
  intro s r s' h hJ
  obtain rfl := hm h
  exact hJ

theorem Keeps.bind (hm : m.Keeps J) (hf : ∀ a, (f a).Keeps J) : Keeps J (m >>= f) := by
  intro s r s'' h hJ
  rcases cases_of_answer_bind h with ⟨e, hs', -⟩ | ⟨a, s', hs', h⟩
  · exact hm hs' hJ
  · exact hf a h (hm hs' hJ)

theorem Keeps.tryCatch {h : ε → ChangeM σ ε α} (hm : m.Keeps J) (hh : ∀ e, (h e).Keeps J) :
    Keeps J (tryCatch m h) := by
  intro s r s'' hr hJ
  rw [answer_tryCatch] at hr
  obtain ⟨⟨e | a, s'⟩, hs', hr⟩ := Option.bind_eq_some_iff.mp hr
  · exact hh e hr (hm hs' hJ)
  · obtain ⟨-, rfl⟩ := Prod.mk.inj (Option.some.inj hr)
    exact hm hs' hJ

/-- An atomic change keeps what the states that it leads to keep. -/
theorem Atomic.keeps {m : ChangeM σ ε Unit} (hm : m.Atomic)
    (hJ : ∀ s s', J s → (m.outcome s).run = some (.ok s') → J s') : m.Keeps J := by
  intro s r s' h hs
  rw [hm.answer_eq] at h
  obtain ⟨_ | s'', hs'', h⟩ := Option.map_eq_some_iff.mp h
  · obtain ⟨-, rfl⟩ := Prod.mk.inj h
    exact hs
  · obtain ⟨-, rfl⟩ := Prod.mk.inj h
    exact hJ s s'' hs hs''

end

/-! ### The states that changes lead to -/

theorem outcome_get_bind (f : σ → ChangeM σ ε Unit) :
    ChangeM.outcome (get >>= f) s = (f s).outcome s := rfl

theorem outcome_lift_bind (o : Option α) (f : α → ChangeM σ ε Unit) :
    ChangeM.outcome (liftM o >>= f) s = liftM o >>= fun a => (f a).outcome s := by
  refine ExceptT.ext ?_
  rw [run_outcome, answer_bind, answer_lift]
  cases o <;> rfl

/-- A change that begins with a question leads to where the rest of it leads. -/
theorem outcome_ofQuery_bind (q : σ → ExceptT ε Option α) (f : α → ChangeM σ ε Unit) :
    (ofQuery q >>= f).outcome s = q s >>= fun a => (f a).outcome s := by
  refine ExceptT.ext ?_
  rw [run_outcome, answer_bind, answer_ofQuery, ExceptT.run_bind]
  rcases (q s).run with _ | _ | a <;> rfl

/-- An answer is known from what it gives and from what is asked of the state
that it leads to. -/
theorem answer_eq_ok {answer : Option (Except ε α × σ)} {a : α} {g : σ → β} {b : β}
    (h : answer.map (fun p => (p.1.toOption, g p.2)) = some (some a, b)) :
    ∃ s, answer = some (.ok a, s) ∧ g s = b := by
  obtain ⟨⟨_ | a', s'⟩, hs', heq⟩ := Option.map_eq_some_iff.mp h
  · cases (Prod.mk.inj heq).1
  · obtain ⟨ha, hb⟩ := Prod.mk.inj heq
    exact ⟨s', Option.some.inj ha ▸ hs', hb⟩

end Pinpoint.ChangeM
