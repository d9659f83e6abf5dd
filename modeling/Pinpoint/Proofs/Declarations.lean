/-
Sequences of declarations.

Constants are declared one after the other, and whoever declares them goes on
after a refusal.  `Attempts` has all of them with the answers to them.

* `declareAll_singleton` — what one attempt does: a constant that is accepted is
  the last one afterwards, and a refusal changes nothing;
* `stands_of_declare` — what an accepted constant is known to be, among the
  constants before it;
* `Attempts.invariant` — what holds of the environment after any attempts;
* `Attempts.wellFounded_dependsOn` — no constant depends on itself, through
  however many others;
* `Catalogue.Attempts.attempts_listing` — the same attempts on a table and an order of
  constants lead to a listing of which all this holds.
-/
import Mathlib.Algebra.GroupWithZero.Nat
import Mathlib.Algebra.Order.BigOperators.Group.List
import Mathlib.Algebra.Order.Group.Nat
import Mathlib.Data.List.Nodup
import Pinpoint.Proofs.Catalogues
import Pinpoint.Proofs.Mentions
import Pinpoint.Proofs.Weakening

namespace Pinpoint

/-- The terms of a constant: its type, and its value if it has one. -/
def Constant.terms (c : Constant) : List Expr := c.type :: c.value.toList

/-- Whether the range of a checker is large enough for the terms of a
constant. -/
def Constant.FitsRange (c : Constant) : Prop :=
  ∀ n, Checker.firstFresh.toNat + (c.terms.map (Expr.openings n)).sum < 2 ^ 64

/-- Whether a constant occurs in a term. -/
def Expr.Invokes (n : Name) (e : Expr) : Prop := ¬ e.ConstsIn fun m _ => m ≠ n

namespace Environment

/-- Attempts to declare constants, in order and each with its answer, and the
environment to which they lead from the empty one. -/
inductive Attempts : List (Constant × Except CheckError Unit) → Environment → Prop
  | none : Attempts [] .empty
  | next {calls : List (Constant × Except CheckError Unit)} {env env' : Environment} {fuel : Nat}
    {c : Constant} {r : Except CheckError Unit} : Attempts calls env →
    env.declareAll fuel [c] = some (env', r) → Attempts (calls ++ [(c, r)]) env'

/-- Whether the type or the value of a constant mentions another one. -/
def DependsOn (env : Environment) (m n : Name) : Prop :=
  ∃ c, env.find? n = some c ∧ ∃ e ∈ c.terms, e.Invokes m

variable {env env' : Environment} {fuel : Nat} {c d : Constant} {n : Name}
  {calls : List (Constant × Except CheckError Unit)} {r : Except CheckError Unit} {e : Expr}

/-! ### One attempt -/

/-- A constant that is accepted is added, and a refusal changes nothing. -/
theorem declareAll_singleton (h : env.declareAll fuel [c] = some (env', r)) :
    (r = .ok () ∧ env.declare fuel c = some (.ok env')) ∨ (r.isOk = false ∧ env' = env) := by
  obtain ⟨r', hr', h⟩ := Option.bind_eq_some_iff.mp h
  cases r' with
  | error err =>
    obtain ⟨rfl, rfl⟩ := Prod.mk.inj (Option.some.inj h)
    exact .inr ⟨rfl, rfl⟩
  | ok env₁ =>
    obtain ⟨rfl, rfl⟩ := Prod.mk.inj (Option.some.inj h)
    exact .inl ⟨rfl, hr'⟩

theorem hasLooseBVars_of_declare (h : env.declare fuel c = some (.ok env')) :
    ∀ e ∈ c.terms, e.hasLooseBVars = false := by
  unfold declare at h
  by_cases hname : env.contains c.name
  · simp [hname] at h
  · rw [if_neg hname] at h
    split at h
    · simp at h
    · rename_i hloose
      rw [Bool.or_eq_true, not_or, Bool.not_eq_true, Bool.not_eq_true] at hloose
      refine List.forall_mem_cons.mpr ⟨hloose.1, fun v hv => ?_⟩
      have hv := Option.mem_toList.mp hv
      simpa [hv] using hloose.2

/-- Every term of a constant that is accepted is given a type, by a checker
without variables in scope; the value comes after the draws for the type. -/
theorem returns_of_declare (h : env.declare fuel c = some (.ok env')) :
    ∀ e ∈ c.terms, ∃ T s s' k, (env.inferType fuel .empty e).Returns s T s' ∧
      s = Checker.firstFresh + .ofNat k ∧
      k + e.openings fuel ≤ (c.terms.map (Expr.openings fuel)).sum := by
  obtain ⟨-, -, s, hcheck⟩ := declare_eq_ok h
  obtain ⟨T, l, t, hT, -, hvalue⟩ := checkConstant_returns hcheck
  refine List.forall_mem_cons.mpr ⟨⟨T, _, t, 0, hT, (UInt64.add_zero _).symm, ?_⟩, fun v hv => ?_⟩
  · simp [Constant.terms]
  · have hv := Option.mem_toList.mp hv
    obtain ⟨V, t', hV, -⟩ := hvalue v hv
    refine ⟨V, t, t', c.type.openings fuel, hV, supply_of_returns hT, ?_⟩
    simp [Constant.terms, hv]

/-- What is known of a constant that was declared after others. -/
structure Stands (earlier : List Constant) (c : Constant) : Prop where
  fresh : ∀ d ∈ earlier, d.name ≠ c.name
  noLooseBVars : ∀ e ∈ c.terms, e.hasLooseBVars = false
  isScoped : ∀ e ∈ c.terms, e.Scoped 0
  consts : ∀ e ∈ c.terms, e.ConstsIn fun n k =>
    ∃ d ∈ earlier, d.name = n ∧ d.levelParams.length = k
  fvars : c.FitsRange → ∀ e ∈ c.terms, e.FVarsIn fun x => ¬ x.IsOuter

theorem stands_of_declare (h : env.declare fuel c = some (.ok env')) :
    Stands env.constants c where
  fresh := by
    intro d hd hname
    have hnone := (declare_eq_ok h).1
    rw [contains, Option.isSome_eq_false_iff, Option.isNone_iff_eq_none] at hnone
    simpa [hname] using List.find?_eq_none.mp hnone d hd
  noLooseBVars := hasLooseBVars_of_declare h
  isScoped := by
    intro e he
    obtain ⟨T, s, s', k, hT, -⟩ := returns_of_declare h e he
    exact scoped_of_inferType hT
  consts := by
    intro e he
    obtain ⟨T, s, s', k, hT, -⟩ := returns_of_declare h e he
    refine (constsIn_of_inferType hT).mono ?_
    rintro n k ⟨d, hd, hk⟩
    exact ⟨d, List.mem_of_find?_eq_some hd, name_of_find? hd, hk⟩
  fvars := by
    intro hfits e he
    obtain ⟨T, s, s', k, hT, rfl, hk⟩ := returns_of_declare h e he
    have hroom := hfits fuel
    have hfirst := toNat_firstFresh
    have hs : (Checker.firstFresh + .ofNat k).toNat = Checker.firstFresh.toNat + k :=
      Supply.toNat_add_ofNat (by omega)
    refine (fvarsIn_of_inferType hT ?_ (by omega)).mono fun x hx houter => ?_
    · rw [UInt64.le_iff_toNat_le]
      omega
    · cases hx houter

/-! ### All attempts -/

/-- The environment holds the constants that were accepted, in order, and each
of them stands on those before it. -/
theorem Attempts.stands (h : Attempts calls env) :
    env.constants = (calls.filter (·.2.isOk)).map (·.1) ∧
      ∀ i c, env.constants[i]? = some c → Stands (env.constants.take i) c := by
  induction h with
  | none => exact ⟨rfl, fun i c hc => by simp [empty] at hc⟩
  | @next calls env env' fuel c r _ hcall ih =>
    obtain ⟨hlist, hstands⟩ := ih
    rcases declareAll_singleton hcall with ⟨rfl, hc⟩ | ⟨hr, rfl⟩
    · obtain ⟨-, rfl, -⟩ := declare_eq_ok hc
      refine ⟨by simp [hlist, Except.isOk, Except.toBool], fun i d hd => ?_⟩
      rw [constants_push] at hd ⊢
      rcases Nat.lt_trichotomy i env.constants.length with hi | rfl | hi
      · rw [List.getElem?_append_left hi] at hd
        rw [List.take_append_of_le_length (Nat.le_of_lt hi)]
        exact hstands i d hd
      · obtain rfl : c = d := by simpa using hd
        rw [List.take_left' rfl]
        exact stands_of_declare hc
      · rw [List.getElem?_eq_none (by simp; omega)] at hd
        cases hd
    · exact ⟨by simp [hlist, hr], hstands⟩

theorem Attempts.nodup (h : Attempts calls env) : (env.constants.map (·.name)).Nodup := by
  refine List.pairwise_map.mpr (List.pairwise_iff_getElem.mpr fun i j hi hj hij => ?_)
  have hstands := h.stands.2 j _ (List.getElem?_eq_getElem hj)
  exact hstands.fresh _ (List.mem_take_iff_getElem.mpr ⟨i, by omega, rfl⟩)

theorem Attempts.find?_eq_some_iff (h : Attempts calls env) :
    env.find? n = some c ↔ c ∈ env.constants ∧ c.name = n := by
  refine ⟨fun hc => ⟨List.mem_of_find?_eq_some hc, name_of_find? hc⟩, ?_⟩
  rintro ⟨hc, rfl⟩
  obtain ⟨d, hd⟩ := Option.isSome_iff_exists.mp
    (List.find?_isSome.mpr ⟨c, hc, decide_eq_true (Eq.refl c.name)⟩ : (env.find? c.name).isSome)
  exact hd.trans (congrArg some (List.inj_on_of_nodup_map h.nodup
    (List.mem_of_find?_eq_some hd) hc (name_of_find? hd)))

/-- The constants that a constant mentions come before it. -/
theorem Attempts.exists_lt_of_dependsOn {m : Name} (h : Attempts calls env)
    (hmn : env.DependsOn m n) : ∃ (i j : Nat) (c d : Constant), i < j ∧
      env.constants[i]? = some d ∧ d.name = m ∧ env.constants[j]? = some c ∧ c.name = n := by
  obtain ⟨c, hc, e, he, hm⟩ := hmn
  obtain ⟨hmem, hname⟩ := h.find?_eq_some_iff.mp hc
  obtain ⟨j, hj⟩ := List.mem_iff_getElem?.mp hmem
  by_contra hnone
  refine hm (((h.stands.2 j c hj).consts e he).mono ?_)
  rintro m' k ⟨d, hd, rfl, -⟩ rfl
  obtain ⟨i, hi, hd⟩ := List.mem_take_iff_getElem.mp hd
  exact hnone ⟨i, j, c, d, by omega, hd ▸ List.getElem?_eq_getElem _, rfl, hj, hname⟩

/-- No constant depends on itself, through however many others. -/
theorem Attempts.wellFounded_dependsOn (h : Attempts calls env) : WellFounded env.DependsOn := by
  refine Subrelation.wf (fun hmn => ?_)
    (InvImage.wf (fun n => (env.constants.map (·.name)).idxOf n) Nat.lt_wfRel.wf)
  obtain ⟨i, j, c, d, hij, hd, rfl, hc, rfl⟩ := h.exists_lt_of_dependsOn hmn
  have hidx : ∀ {i c}, env.constants[i]? = some c →
      (env.constants.map (·.name)).idxOf c.name = i := by
    intro i c hc
    obtain ⟨hi, rfl⟩ := List.getElem?_eq_some_iff.mp hc
    have hmap := h.nodup.idxOf_getElem i (by simpa using hi)
    rwa [List.getElem_map] at hmap
  rw [InvImage, hidx hd, hidx hc]
  exact hij

/-- After any attempts to declare constants, whatever became of each:

* an attempt that is refused leaves the environment as it was;
* the environment lists the constants that were accepted, in the order of their
  acceptance and each once, and finds each of them by its name;
* no type or value has a loose bound variable, and the constants in it were
  declared strictly before, with as many universe parameters as it gives levels;
  so dependence is well-founded;
* no type or value has a free variable, if none has one that the checker keeps
  for itself. -/
theorem Attempts.invariant (h : Attempts calls env) :
    (∀ fuel c env' r, env.declareAll fuel [c] = some (env', r) → r.isOk = false → env' = env) ∧
    env.constants = (calls.filter (·.2.isOk)).map (·.1) ∧
    (env.constants.map (·.name)).Nodup ∧
    (∀ n c, env.find? n = some c ↔ c ∈ env.constants ∧ c.name = n) ∧
    (∀ (i : Nat) (c : Constant), env.constants[i]? = some c →
      ∀ e ∈ c.terms, e.hasLooseBVars = false ∧ e.Scoped 0 ∧
        e.ConstsIn fun n k => ∃ (j : Nat) (d : Constant), j < i ∧
          env.constants[j]? = some d ∧ d.name = n ∧ d.levelParams.length = k) ∧
    WellFounded env.DependsOn ∧
    ∀ c ∈ env.constants, c.FitsRange → (∀ e ∈ c.terms, e.FVarsIn FVarId.IsOuter) →
      ∀ e ∈ c.terms, e.FVarsIn fun _ => False := by
  obtain ⟨hlist, hstands⟩ := h.stands
  refine ⟨fun fuel c env' r hcall hr => ?_, hlist, h.nodup, fun n c => h.find?_eq_some_iff,
    fun i c hc e he => ⟨?_, ?_, ?_⟩, h.wellFounded_dependsOn, fun c hc hfits houter e he => ?_⟩
  · rcases declareAll_singleton hcall with ⟨rfl, -⟩ | ⟨-, henv⟩
    · cases hr
    · exact henv
  · exact (hstands i c hc).noLooseBVars e he
  · exact (hstands i c hc).isScoped e he
  · refine ((hstands i c hc).consts e he).mono ?_
    rintro n k ⟨d, hd, hname, hk⟩
    obtain ⟨j, hj, hd⟩ := List.mem_take_iff_getElem.mp hd
    exact ⟨j, d, by omega, hd ▸ List.getElem?_eq_getElem _, hname, hk⟩
  · obtain ⟨i, hi⟩ := List.mem_iff_getElem?.mp hc
    refine (houter e he).mp (((hstands i c hi).fvars hfits e he).mono ?_)
    exact fun x hx houter => hx houter

end Environment

/-! ### Catalogues -/

namespace Catalogue

open ChangeM

variable {k : Catalogue}

/-- Attempts to declare constants, in order and each with its answer, and the
catalogue to which they lead from the empty one. -/
inductive Attempts : List (Constant × Except CheckError Unit) → Catalogue → Prop
  | none : Attempts [] .empty
  | next {calls : List (Constant × Except CheckError Unit)} {k k' : Catalogue} {fuel : Nat}
    {c : Constant} {r : Except CheckError Unit} : Attempts calls k →
    (declare fuel c).answer k = some (r, k') → Attempts (calls ++ [(c, r)]) k'

namespace Attempts

variable {calls : List (Constant × Except CheckError Unit)}

/-- The table and the order are in step after any attempts. -/
theorem inStep (h : Attempts calls k) : k.InStep := by
  induction h with
  | none => exact inStep_empty
  | next _ hc ih => exact keeps_declare _ _ hc ih

/-- The listing is the environment to which the same attempts lead. -/
theorem attempts_listing (h : Attempts calls k) : Environment.Attempts calls k.listing := by
  induction h with
  | none => exact .none
  | @next calls k k' fuel c r hk hc ih =>
    have hcall : k.listing.declareAll fuel [c] = some (k'.listing, r) := by
      rw [← answer_declareAll hk.inStep, declareAll, answer_bind, hc]
      cases r <;> rfl
    exact ih.next hcall

/-- After any attempts the catalogue lists the constants that were accepted, in the
order of their acceptance and each once; it finds each of them by its name, and no
others, and counts them. -/
theorem constants_eq (h : Attempts calls k) :
    k.constants = (calls.filter (·.2.isOk)).map (·.1) ∧ (k.constants.map (·.name)).Nodup ∧
      (∀ n c, k.get? n = some c ↔ c ∈ k.constants ∧ c.name = n) ∧
      k.size = k.constants.length := by
  have hk := h.inStep
  refine ⟨h.attempts_listing.stands.1, h.attempts_listing.nodup, fun n c => ?_, hk.size_eq⟩
  rw [← hk.find?_listing]
  exact h.attempts_listing.find?_eq_some_iff

end Attempts

end Catalogue

namespace Environment

/-! ### Examples -/

namespace DeclarationExample

/-- A type. -/
def point : Constant := ⟨.simple "Point", [], .type, none⟩

/-- A definition by it. -/
def segment : Constant :=
  ⟨.simple "Segment", [], .type, some (.pi .default (.const (.simple "Point") [])
    (.const (.simple "Point") []))⟩

/-- `∀ (p : Prop), x`, where `x` is the variable that a checker opens this
quantifier with. -/
def capturing : Constant :=
  ⟨.simple "k", [], .pi .default .prop (.fvar ⟨Checker.firstFresh⟩), none⟩

/-- A type is declared, once more in vain, and then used. -/
def tried : List (Constant × Except CheckError Unit) :=
  [(point, .ok ()), (point, .error (.alreadyDeclared point.name)), (segment, .ok ())]

theorem attempts : Attempts tried ⟨[point, segment]⟩ := by
  have hfirst : declareAll ⟨[]⟩ 5 [point] = some (⟨[point]⟩, .ok ()) := rfl
  have hagain : declareAll ⟨[point]⟩ 5 [point] =
      some (⟨[point]⟩, .error (.alreadyDeclared point.name)) := rfl
  have huse : declareAll ⟨[point]⟩ 5 [segment] = some (⟨[point, segment]⟩, .ok ()) := rfl
  exact ((Attempts.none.next hfirst).next hagain).next huse

theorem fitsRange : ∀ c ∈ [point, segment], c.FitsRange := by
  intro c hc n
  have hsum : (c.terms.map (Expr.openings n)).sum ≤ (c.terms.map Expr.size).sum :=
    List.sum_le_sum fun e he => Expr.openings_le_size
      ((by decide : ∀ c ∈ [point, segment], ∀ e ∈ c.terms, e.letFree) c hc e he)
  have hsize := (by decide : ∀ c ∈ [point, segment], (c.terms.map Expr.size).sum < 10) c hc
  rw [toNat_firstFresh]
  omega

end DeclarationExample

open DeclarationExample in
/-- The attempt to declare a type once more leaves no trace, and the definition
depends on the type alone. -/
theorem refused_attempt_without_trace : Attempts tried ⟨[point, segment]⟩ ∧
    (tried.filter (·.2.isOk)).map (·.1) = [point, segment] ∧
    WellFounded (DependsOn ⟨[point, segment]⟩) ∧
    ∀ c ∈ [point, segment], ∀ e ∈ c.terms, e.FVarsIn fun _ => False := by
  obtain ⟨-, hlist, -, -, -, hacyclic, hfree⟩ := attempts.invariant
  refine ⟨attempts, hlist.symm, hacyclic, fun c hc => hfree c hc (fitsRange c hc) ?_⟩
  revert c
  decide

open DeclarationExample in
/-- A constant is accepted although a free variable occurs in its type. -/
theorem free_variable_declared : Attempts [(capturing, .ok ())] ⟨[capturing]⟩ ∧
    ¬ capturing.type.FVarsIn fun _ => False := by
  have haccepted : declareAll ⟨[]⟩ 5 [capturing] = some (⟨[capturing]⟩, .ok ()) := rfl
  exact ⟨Attempts.none.next haccepted, fun h => h.2⟩

end Environment

end Pinpoint
