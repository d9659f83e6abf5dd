/-
When reduction ends in weak-head normal forms.

Reduction looks at what the head of an application reduces to, and leaves the
application as it is if that is no function and no definition.  The head that
it leaves in place may still reduce, so the result need not be weak-head normal.

* `whnf_cases` — what a reduction can end in;
* `WeakHeadNormal` — nothing can be reduced at the head of the term, or at the
  head of a function in it;
* `whnf_weakHeadNormal_iff` — the result of a reduction is weak-head normal
  exactly if reduction leaves each of its functions, without its metadata, as it
  is.
-/
import Pinpoint.Proofs.Reduction
import Pinpoint.Proofs.Skeleton
import Pinpoint.Prelude

namespace Pinpoint

/-- The functions that stand in the spine of a term, through metadata. -/
def Expr.functionParts : Expr → List Expr
  | .app f _ => f :: f.functionParts
  | .mdata _ e => e.functionParts
  | _ => []

namespace Environment

open Pinpoint.Expr

/-- Whether a function that is applied has a head at which nothing can be
reduced. -/
def HeadNormal (env : Environment) (t : Transparency) : Expr → Prop
  | .app f _ => env.HeadNormal t f
  | .mdata _ e => env.HeadNormal t e
  | .letE .. => False
  | .lam .. => False
  | .const c ls => env.valueAt? t c ls = none
  | _ => True

/-- Whether nothing can be reduced at the head of a term, which has no metadata
around it. -/
def WeakHeadNormal (env : Environment) (t : Transparency) : Expr → Prop
  | .app f _ => env.HeadNormal t f
  | .mdata .. => False
  | .letE .. => False
  | .const c ls => env.valueAt? t c ls = none
  | _ => True

/-- Whether reduction leaves the term under the metadata as it is. -/
def Irreducible (env : Environment) (t : Transparency) (e : Expr) : Prop :=
  ∃ n, env.whnf t n e.stripMData = some e.stripMData

/-- Whether reduction finds a head that does nothing with its arguments. -/
def EndsStuck (env : Environment) (t : Transparency) (e : Expr) : Prop :=
  ∃ n head, env.whnf t n e = some head ∧ env.Stuck t head

variable {env : Environment} {t : Transparency} {n : Nat} {e e' f : Expr}

/-! ### Results -/

/-- What a reduction ends in: an atom, a constant that does not unfold, or an
application whose head comes to something that does nothing with its
arguments. -/
theorem whnf_cases (h : env.whnf t n e = some e') :
    Atomic e' ∨ (∃ c ls, e' = .const c ls ∧ env.valueAt? t c ls = none) ∨
      ∃ f a, e' = .app f a ∧ env.EndsStuck t e'.appFn := by
  induction n generalizing e e' with
  | zero => cases h
  | succ n ih =>
    cases e with
    | mdata m e => exact ih h
    | letE type v b => exact ih h
    | const c ls =>
      cases hv : env.valueAt? t c ls with
      | some v => exact ih (whnf_const_of_value hv ▸ h)
      | none =>
        rw [whnf_const_of_none hv] at h
        exact .inr (.inl ⟨c, ls, (Option.some.inj h).symm, hv⟩)
    | app f a =>
      -- only an application that is not contracted is a result: the head that was
      -- looked at is forgotten, and the one that it came from stays
      obtain ⟨head, hhead, ⟨_, _, _, _, _, -, -, h⟩ | ⟨_, _, _, -, -, h⟩ | ⟨hstuck, rfl⟩⟩ :=
        whnf_app_cases h
      · exact ih h
      · exact ih h
      · exact .inr (.inr ⟨f, a, rfl, n, head, hhead, hstuck⟩)
    | _ => exact .inl (Option.some.inj h ▸ trivial)

/-- A head that ends stuck leaves its application as it is. -/
theorem EndsStuck.whnf_app {a : Expr} (h : env.EndsStuck t f.appFn) :
    ∃ n, env.whnf t n (.app f a) = some (.app f a) := by
  obtain ⟨n, head, hhead, hstuck⟩ := h
  exact ⟨n + 1, whnf_app_of_stuck hhead hstuck⟩

/-- Reduction leaves its results as they are. -/
theorem whnf_result (h : env.whnf t n e = some e') : ∃ m, env.whnf t m e' = some e' := by
  rcases whnf_cases h with ha | ⟨c, ls, rfl, hv⟩ | ⟨f, a, rfl, hstuck⟩
  · cases e' <;> first | exact ⟨1, rfl⟩ | cases ha
  · exact ⟨1, whnf_const_of_none hv⟩
  · exact EndsStuck.whnf_app (f := f) hstuck

/-! ### Stuck heads -/

/-- A term ends stuck if the head of its spine does. -/
theorem EndsStuck.of_appFn (h : env.EndsStuck t e.appFn) : env.EndsStuck t e := by
  cases e with
  | app f a =>
    obtain ⟨n, hn⟩ := EndsStuck.whnf_app (f := f) (a := a) h
    exact ⟨n, _, hn, fun _ _ _ => nofun, fun _ _ => nofun⟩
  | _ => exact h

/-- A function with a normal head ends stuck. -/
theorem HeadNormal.endsStuck (h : env.HeadNormal t f) : env.EndsStuck t f.appFn := by
  induction f with
  | app g a ihg _ => exact ihg h
  | mdata m e ih =>
    obtain ⟨n, head, hhead, hstuck⟩ := (ih h).of_appFn
    exact ⟨n + 1, head, hhead, hstuck⟩
  | const c ls =>
    refine ⟨1, .const c ls, whnf_const_of_none h, fun _ _ _ => nofun, ?_⟩
    rintro c' ls' heq
    obtain ⟨rfl, rfl⟩ := Expr.const.inj heq
    exact h
  | lam | letE => exact absurd h id
  | _ => exact ⟨1, _, rfl, (fun _ _ _ => nofun), fun _ _ => nofun⟩

theorem headNormal_stripMData : env.HeadNormal t f.stripMData ↔ env.HeadNormal t f := by
  induction f with
  | mdata m e ih => exact ih
  | _ => exact Iff.rfl

theorem HeadNormal.irreducible (h : env.HeadNormal t f) : env.Irreducible t f := by
  have hstrip := headNormal_stripMData.mpr h
  unfold Irreducible
  cases hf : f.stripMData with
  | mdata m e => exact absurd hf (stripMData_ne_mdata f m e)
  | app g a =>
    rw [hf] at hstrip
    exact EndsStuck.whnf_app (f := g) hstrip.endsStuck
  | const c ls =>
    rw [hf] at hstrip
    exact ⟨1, whnf_const_of_none hstrip⟩
  | lam | letE =>
    rw [hf] at hstrip
    exact absurd hstrip id
  | _ => exact ⟨1, rfl⟩

/-- The functions in a function with a normal head have normal heads. -/
theorem HeadNormal.of_mem_functionParts (h : env.HeadNormal t f) {p : Expr}
    (hp : p ∈ f.functionParts) : env.HeadNormal t p := by
  induction f with
  | app g a ihg _ =>
    rcases List.mem_cons.mp hp with rfl | hp
    · exact h
    · exact ihg h hp
  | mdata m e ih => exact ih h hp
  | _ => cases hp

theorem EndsStuck.of_mdata {m : List (Name × MDataValue)} (h : env.EndsStuck t (.mdata m e))
    (he : env.Irreducible t e) : env.EndsStuck t e.appFn := by
  -- reduction has gone from the metadata to the whole term under it, so the head
  -- of that term has to come from its own irreducibility
  obtain ⟨_ | n, head, hhead, hstuck⟩ := h
  · cases hhead
  obtain ⟨k, hk⟩ := he
  cases e with
  | app f a =>
    rcases whnf_cases hk with ha | ⟨_, _, heq, -⟩ | ⟨_, _, -, hf⟩
    · cases ha
    · cases heq
    · exact hf
  | _ => exact ⟨n, head, hhead, hstuck⟩

/-- A function has a normal head if its head ends stuck and reduction leaves it
and the functions in it as they are. -/
theorem headNormal_of_irreducible (h : env.EndsStuck t f.appFn) (hf : env.Irreducible t f)
    (hparts : ∀ p ∈ f.functionParts, env.Irreducible t p) : env.HeadNormal t f := by
  induction f with
  | app g a ihg _ =>
    exact ihg h (hparts g List.mem_cons_self) fun p hp => hparts p (List.mem_cons_of_mem _ hp)
  | mdata m e ih => exact ih (h.of_mdata hf) hf hparts
  | letE type v b =>
    obtain ⟨n, hn⟩ := hf
    rcases whnf_cases hn with ha | ⟨_, _, heq, -⟩ | ⟨_, _, heq, -⟩ <;> first | cases ha | cases heq
  | lam i d b =>
    obtain ⟨_ | n, head, hhead, hstuck⟩ := h
    · cases hhead
    · exact hstuck.1 i d b (Option.some.inj hhead).symm
  | const c ls =>
    obtain ⟨n, hn⟩ := hf
    rcases whnf_cases hn with ha | ⟨_, _, heq, hv⟩ | ⟨_, _, heq, -⟩
    · cases ha
    · cases heq
      exact hv
    · cases heq
  | _ => trivial

/-- A reduction ends in a term that it leaves as it is and that is weak-head
normal or an application whose head ends stuck.  The term is weak-head normal
exactly if reduction leaves each of the functions in it, without its metadata,
as it is. -/
theorem whnf_weakHeadNormal_iff (h : env.whnf t n e = some e') :
    (∃ m, env.whnf t m e' = some e') ∧
    (env.WeakHeadNormal t e' ∨ ∃ f a, e' = .app f a ∧ env.EndsStuck t f.appFn) ∧
    (env.WeakHeadNormal t e' ↔ ∀ f ∈ e'.functionParts, env.Irreducible t f) := by
  refine ⟨whnf_result h, ?_⟩
  rcases whnf_cases h with ha | ⟨c, ls, rfl, hv⟩ | ⟨f, a, rfl, hstuck⟩
  · have hnormal : env.WeakHeadNormal t e' := by cases e' <;> trivial
    have hparts : e'.functionParts = [] := by cases e' <;> trivial
    exact ⟨.inl hnormal, fun _ => by simp [hparts], fun _ => hnormal⟩
  · exact ⟨.inl hv, fun _ => nofun, fun _ => hv⟩
  · refine ⟨.inr ⟨f, a, rfl, hstuck⟩, fun hf p hp => ?_, fun hparts => ?_⟩
    · exact (HeadNormal.of_mem_functionParts (f := .app f a) hf hp).irreducible
    · exact headNormal_of_irreducible hstuck (hparts f List.mem_cons_self)
        fun p hp => hparts p (List.mem_cons_of_mem _ hp)

/-- The prelude with one more definition, which stands for the successor. -/
def withNext : Environment :=
  ⟨Prelude.constants ++ [⟨.simple "next", [], .arrow (.const Vocabulary.nat [])
    (.const Vocabulary.nat []), some (.const Vocabulary.natSucc [])⟩]⟩

/-- A local definition of a function under metadata: what is left is normal, and
the metadata is still there. -/
theorem whnf_weakHeadNormal_of_local_function :
    let zero : Expr := .const Vocabulary.natZero []
    let succ : Expr := .const Vocabulary.natSucc []
    let nat : Expr := .const Vocabulary.nat []
    withNext.whnf .all 4 (.letE (.arrow nat nat) succ (.app (.mdata [] (.bvar 0)) zero)) =
        some (.app (.mdata [] succ) zero) ∧
      withNext.WeakHeadNormal .all (.app (.mdata [] succ) zero) := by
  intro zero succ nat
  have h : withNext.whnf .all 4 (.letE (.arrow nat nat) succ (.app (.mdata [] (.bvar 0)) zero)) =
      some (.app (.mdata [] succ) zero) := by decide +kernel
  refine ⟨h, (whnf_weakHeadNormal_iff h).2.2.mpr fun f hf => ?_⟩
  obtain rfl := List.mem_singleton.mp hf
  exact ⟨1, by decide +kernel⟩

/-- A definition that stands for a constant is left at the head of an
application, and so is a local definition that comes to an application. -/
theorem whnf_of_defined_head :
    let zero : Expr := .const Vocabulary.natZero []
    let nat : Expr := .const Vocabulary.nat []
    let e : Expr := .app (.const (.simple "next") []) zero
    let e' : Expr := .app (.letE nat zero
      (.mkApp (.const Vocabulary.eq [.one]) [nat, .bvar 0])) zero
    (withNext.whnf .all 3 e = some e ∧ ¬ withNext.WeakHeadNormal .all e) ∧
      (withNext.whnf .reducible 4 e' = some e' ∧ ¬ withNext.WeakHeadNormal .reducible e') := by
  intro zero nat e e'
  have hvalue : withNext.valueAt? .all (.simple "next") [] ≠ none := by decide +kernel
  exact ⟨⟨by decide +kernel, hvalue⟩, by decide +kernel, id⟩

end Environment

end Pinpoint
