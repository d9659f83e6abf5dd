/-
What a search lists.

A search asks one checker about all its candidates, and the checker goes on
drawing variables from where it stopped.  As long as the term has none of the
variables that the checker draws, each answer is the one that a checker gives
that has drawn no variable yet, so the search lists the candidates that such a
checker accepts (`Rule.occurrences`).

* `Supply.Alike`, `Supply.Steady` — computations for which it does not matter
  where in the range of the checker they begin; `Supply.runFresh_bind` takes
  them apart;
* `Rule.steady_accepts` — asking about a candidate is one of them;
* `findAll_eq_some_iff` — several rules list their occurrences rule by rule,
  each in pre-order, up to the limit; they do so just if the checker ends on
  each candidate;
* `captured_function_passed_over` — a term with a variable that the checker
  draws, in which an occurrence is not listed.
-/
import Mathlib.Algebra.GroupWithZero.Nat
import Mathlib.Algebra.Order.BigOperators.Group.List
import Mathlib.Algebra.Order.Group.Nat
import Pinpoint.Proofs.Candidates
import Pinpoint.Proofs.Freshness
import Pinpoint.Proofs.Hereditary
import Pinpoint.Proofs.Prelude

namespace Pinpoint

/-! ### Anywhere in the range -/

namespace Supply

variable {α β γ δ : Type} {R R' : α → β → Prop} {Q : γ → δ → Prop} {k l : Nat} {s : UInt64}

/-- Whether two computations that draw at most `k` variables go along with each
other wherever in the range of the checker they begin, as long as neither comes
to its end. -/
def Alike (R : α → β → Prop) (k : Nat) (m : Supply α) (m' : Supply β) : Prop :=
  ∀ s s', Checker.firstFresh ≤ s → Checker.firstFresh ≤ s' →
    s.toNat + k < 2 ^ 64 → s'.toNat + k < 2 ^ 64 → Along R k m s m' s'

/-- Whether it does not matter where in the range of the checker a computation
begins. -/
def Steady (k : Nat) (m : Supply α) : Prop := m.Alike (· = ·) k m

/-- Draws that fit into the range lead to a place in the range. -/
theorem range_add {i : Nat} (hs : Checker.firstFresh ≤ s) (hroom : s.toNat + (k + l) < 2 ^ 64)
    (hi : i ≤ k) : Checker.firstFresh ≤ s + .ofNat i ∧ (s + .ofNat i).toNat + l < 2 ^ 64 := by
  rw [UInt64.le_iff_toNat_le] at hs ⊢
  have hdraw : (s + .ofNat i).toNat = s.toNat + i := Supply.toNat_add_ofNat (by omega)
  omega

theorem Alike.mono {m : Supply α} {m' : Supply β} (h : Alike R k m m') (hkl : k ≤ l) :
    Alike R l m m' :=
  fun s s' hs hs' hroom hroom' =>
    (h s s' hs hs' (by omega) (by omega)).mono hkl fun _ _ => id

theorem Alike.bind {m : Supply α} {m' : Supply β} {f : α → Supply γ} {f' : β → Supply δ}
    (hm : Alike R k m m') (hf : ∀ a b, R a b → Alike Q l (f a) (f' b)) :
    Alike Q (k + l) (m >>= f) (m' >>= f') := by
  intro s s' hs hs' hroom hroom'
  refine (hm s s' hs hs' (by omega) (by omega)).bind fun i hi a b hab _ => ?_
  obtain ⟨hnext, hrest⟩ := range_add hs hroom hi
  obtain ⟨hnext', hrest'⟩ := range_add hs' hroom' hi
  exact hf a b hab _ _ hnext hnext' hrest hrest'

namespace Steady

variable {m : Supply α} {f : α → Supply γ}

theorem pure (a : α) : Steady 0 (Pure.pure a : Supply α) := fun _ _ _ _ _ _ => .pure rfl

theorem lift (o : Option α) : Steady 0 (liftM o : Supply α) := by
  cases o with
  | none => exact fun _ _ _ _ _ _ => .inl ⟨rfl, rfl⟩
  | some a => exact pure a

theorem bind (hm : Steady k m) (hf : ∀ a, Steady l (f a)) : Steady (k + l) (m >>= f) :=
  Alike.bind hm fun a _ hab => hab ▸ hf a

/-- The result is that of a checker that has drawn no variable yet. -/
theorem run'_eq (hm : Steady k m) (hs : Checker.firstFresh ≤ s) (hroom : s.toNat + k < 2 ^ 64) :
    m.run' s = m.runFresh := by
  have hfirst : Checker.firstFresh.toNat + k < 2 ^ 64 := by
    rw [UInt64.le_iff_toNat_le] at hs
    omega
  show (m.run s).map Prod.fst = (m.run Checker.firstFresh).map Prod.fst
  rcases hm s _ hs UInt64.le_rfl hroom hfirst with ⟨h, h'⟩ | ⟨i, -, a, b, rfl, h, h'⟩
  · rw [h, h']
  · rw [h, h']
    rfl

/-- Each step has the result that it has on its own. -/
theorem runFresh_bind (hm : Steady k m) (hf : ∀ a, Steady l (f a)) (hroom : k + l < 3 * 2 ^ 62) :
    (m >>= f).runFresh = m.runFresh.bind fun a => (f a).runFresh := by
  have hfirst : Checker.firstFresh.toNat + (k + l) < 2 ^ 64 := by
    rw [Environment.toNat_firstFresh]
    omega
  have hbind : (m >>= f).runFresh =
      (m.run Checker.firstFresh).bind fun at' => (f at'.1).run' at'.2 := by
    show Option.map Prod.fst ((m >>= f).run Checker.firstFresh) = _
    rw [StateT.run_bind]
    cases m.run Checker.firstFresh <;> rfl
  have hfresh : m.runFresh = (m.run Checker.firstFresh).map Prod.fst := rfl
  rw [hbind, hfresh]
  rcases hm _ _ UInt64.le_rfl UInt64.le_rfl (by omega) (by omega) with
    ⟨h, -⟩ | ⟨i, hi, a, b, -, h, -⟩
  · rw [h]
    rfl
  · obtain ⟨hnext, hrest⟩ := range_add UInt64.le_rfl hfirst hi
    rw [h]
    exact (hf a).run'_eq hnext hrest

end Steady

/-! ### Walks -/

variable {test : α → Supply Bool} {draws : α → Nat} {as : List α}

theorem Steady.keep (htest : ∀ a ∈ as, Steady (draws a) (test a)) :
    Steady (as.map draws).sum (keep test as) := by
  induction as with
  | nil => exact .pure []
  | cons a as ih =>
    rw [List.map_cons, List.sum_cons, ← Nat.add_zero (as.map draws).sum]
    refine (htest a (List.mem_cons_self ..)).bind fun accepted => ?_
    refine (ih fun b hb => htest b (List.mem_cons_of_mem _ hb)).bind fun kept => ?_
    exact .pure _

/-- A walk keeps what is accepted by a checker that has drawn no variable yet. -/
theorem runFresh_keep {kept : List α} (htest : ∀ a ∈ as, Steady (draws a) (test a))
    (hroom : (as.map draws).sum < 3 * 2 ^ 62) :
    (keep test as).runFresh = some kept ↔
      (∀ a ∈ as, (test a).runFresh.isSome) ∧
        kept = as.filter fun a => (test a).runFresh = some true := by
  induction as generalizing kept with
  | nil =>
    show some [] = some kept ↔ _
    rw [Option.some.injEq, eq_comm, List.filter_nil]
    exact (and_iff_right (List.forall_mem_nil _)).symm
  | cons a as ih =>
    rw [List.map_cons, List.sum_cons] at hroom
    have hrest := fun b hb => htest b (List.mem_cons_of_mem a hb)
    -- What the later tests answer does not depend on the variables drawn by the first one.
    have hwalk : (keep test (a :: as)).runFresh = (test a).runFresh.bind fun accepted =>
        (keep test as).runFresh.map fun kept => if accepted then a :: kept else kept := by
      rw [keep, (htest a (List.mem_cons_self ..)).runFresh_bind (l := (as.map draws).sum + 0)
        (fun accepted => (Steady.keep hrest).bind fun kept => .pure _) (by omega)]
      congr 1
      funext accepted
      rw [(Steady.keep hrest).runFresh_bind (fun kept => .pure _) (by omega)]
      cases (keep test as).runFresh <;> rfl
    rw [hwalk]
    cases ha : (test a).runFresh with
    | none => simp [ha]
    | some accepted =>
      rw [Option.bind_some, Option.map_eq_some_iff]
      constructor
      · rintro ⟨rest, hkept, rfl⟩
        obtain ⟨hends, rfl⟩ := (ih hrest (by omega)).mp hkept
        refine ⟨List.forall_mem_cons.mpr ⟨by rw [ha]; rfl, hends⟩, ?_⟩
        cases accepted <;> simp [ha]
      · rintro ⟨hends, rfl⟩
        refine ⟨_, (ih hrest (by omega)).mpr ⟨fun b hb => hends b (List.mem_cons_of_mem a hb), rfl⟩, ?_⟩
        cases accepted <;> simp [ha]

end Supply

/-! ### Asking about a candidate -/

/-- How many variables the checker draws at most for the types of values. -/
def Substitution.draws (fuel : Nat) (values : Substitution) : Nat :=
  (values.map fun v => v.elim 0 (Expr.openings fuel)).sum

theorem Substitution.draws_cons (fuel : Nat) (value : Option Expr) (values : Substitution) :
    draws fuel (value :: values) = value.elim 0 (Expr.openings fuel) + draws fuel values := rfl

section
variable {checker : Checker} {limit : Option Nat} {host : Expr} {r : Rule} {m : Match}

theorem Checker.alike_inferType {e : Expr} (henv : checker.env.FVarFree)
    (hlocals : checker.locals.FVarsIn FVarId.IsOuter) (he : e.FVarsIn FVarId.IsOuter) :
    Supply.Alike (CheckM.Related (· = ·)) (e.openings checker.fuel) (checker.inferType e).run
      (checker.inferType e).run :=
  fun _ _ hs hs' hroom hroom' => henv.inferType_along_self hlocals he hs hs' (Nat.le_of_lt hroom)
    (Nat.le_of_lt hroom')

theorem steady_valuesHaveTypes {earlier values : Substitution} {types : List Expr}
    (henv : checker.env.FVarFree) (hlocals : checker.locals.FVarsIn FVarId.IsOuter)
    (hvalues : ∀ v, some v ∈ values → v.FVarsIn FVarId.IsOuter) :
    Supply.Steady (values.draws checker.fuel) (valuesHaveTypes checker earlier types values) := by
  induction types generalizing earlier values with
  | nil =>
    rw [valuesHaveTypes]
    · exact (Supply.Steady.pure true).mono (Nat.zero_le _)
    · simp
  | cons type types ih =>
    rcases values with _ | ⟨value, values⟩
    · exact .pure true
    · -- the values after this one, once it is known whether it fits
      have hrest : ∀ {m : Supply Bool} {k : Nat}, Supply.Steady k m →
          Supply.Steady (k + Substitution.draws checker.fuel values) (m >>= fun fits =>
            if fits then valuesHaveTypes checker (earlier ++ [value]) types values
            else pure false) := by
        intro m k hm
        refine hm.bind fun fits => ?_
        cases fits
        · exact (Supply.Steady.pure false).mono (Nat.zero_le _)
        · exact ih fun v hv => hvalues v (List.mem_cons_of_mem _ hv)
      rw [Substitution.draws_cons]
      cases value with
      | none =>
        rw [valuesHaveTypes]
        exact hrest (.pure true)
      | some v =>
        rw [valuesHaveTypes]
        split
        · exact hrest ((Supply.Steady.pure true).mono (Nat.zero_le _))
        · refine (Checker.alike_inferType henv hlocals (hvalues v (List.mem_cons_self ..))).bind
            fun x y hxy => ?_
          rw [← Nat.zero_add (Substitution.draws checker.fuel values)]
          -- two errors are alike, whatever they say
          cases x <;> cases y
          · exact hrest (.pure false)
          · cases hxy
          · cases hxy
          · cases hxy
            exact hrest (.lift _)

/-- A rule may be asked about a candidate at any time. -/
theorem Rule.steady_accepts (henv : checker.env.FVarFree)
    (hlocals : checker.locals.FVarsIn FVarId.IsOuter) (hhost : host.FVarsIn FVarId.IsOuter)
    (hm : m ∈ r.candidates host) :
    Supply.Steady (m.subst.draws checker.fuel) (r.accepts checker m) := by
  obtain ⟨hsubterm, -, hmatch⟩ := mem_candidates_iff.mp hm
  refine steady_valuesHaveTypes henv hlocals (Expr.FVarsIn.of_matchAt? (hhost.subterm? hsubterm)
    (fun v hv => ?_) hmatch)
  simp at hv

end

/-! ### Several rules -/

/-- The candidates of a rule that are accepted by a checker that has drawn no
variable yet. -/
def Rule.occurrences (checker : Checker) (r : Rule) (e : Expr) : List Match :=
  (r.candidates e).filter fun m => (r.accepts checker m).runFresh = some true

/-- How many variables a search draws at most. -/
def Rule.draws (checker : Checker) (limit : Option Nat) (r : Rule) (e : Expr) : Nat :=
  ((r.candidatesWithin limit e).map fun m => m.subst.draws checker.fuel).sum

section
variable {checker : Checker} {limit : Option Nat} {host : Expr} {r : Rule} {rules : List Rule}
  {m : Match} {s : UInt64}

/-- The occurrences of a rule are at the paths to closed subterms that it
matches with values of the right types. -/
theorem Rule.mem_occurrences_iff :
    m ∈ r.occurrences checker host ↔
      host.subterm? m.path = some m.subterm ∧ m.subterm.hasLooseBVars = false ∧
        r.match? m.subterm = some m.subst ∧ (r.wellTyped checker m.subst).runFresh = some true := by
  rw [occurrences, List.mem_filter, mem_candidates_iff, and_assoc, and_assoc, decide_eq_true_iff]
  rfl

theorem Rule.occurrences_pairwise (checker : Checker) (r : Rule) (host : Expr) :
    (r.occurrences checker host).Pairwise fun m m' => m.path.Before m'.path :=
  (r.candidates_pairwise host).filter _

theorem Rule.filter_candidatesWithin :
    ((r.candidatesWithin limit host).filter fun m => (r.accepts checker m).runFresh = some true) =
      (r.occurrences checker host).filter (·.path.within limit) := by
  rw [candidatesWithin, occurrences, List.filter_comm]

section
variable (henv : checker.env.FVarFree) (hlocals : checker.locals.FVarsIn FVarId.IsOuter)
  (hhost : host.FVarsIn FVarId.IsOuter)
include henv hlocals hhost

theorem Rule.steady_findMatches (r : Rule) (limit : Option Nat) :
    Supply.Steady (r.draws checker limit host) (r.findMatches checker host limit) := by
  rw [findMatches_eq_keep]
  exact .keep fun m hm => steady_accepts henv hlocals hhost (List.mem_of_mem_filter hm)

/-- A search for one rule lists its occurrences, if the checker ends on each
candidate. -/
theorem Rule.findMatches_runFresh_iff (hroom : r.draws checker limit host < 3 * 2 ^ 62)
    {found : List Match} :
    (r.findMatches checker host limit).runFresh = some found ↔
      (∀ m ∈ r.candidatesWithin limit host, (r.accepts checker m).runFresh.isSome) ∧
        found = (r.occurrences checker host).filter (·.path.within limit) := by
  have htest : ∀ m ∈ r.candidatesWithin limit host,
      Supply.Steady (m.subst.draws checker.fuel) (r.accepts checker m) :=
    fun m hm => steady_accepts henv hlocals hhost (List.mem_of_mem_filter hm)
  rw [findMatches_eq_keep, Supply.runFresh_keep htest hroom, filter_candidatesWithin]

theorem steady_findAllFrom (limit : Option Nat) (i : Nat) (rules : List Rule) :
    Supply.Steady (rules.map fun r => r.draws checker limit host).sum
      (findAllFrom checker limit host i rules) := by
  induction rules generalizing i with
  | nil => exact .pure []
  | cons r rules ih =>
    rw [List.map_cons, List.sum_cons, ← Nat.add_zero (List.sum _)]
    refine (r.steady_findMatches henv hlocals hhost limit).bind fun found => ?_
    exact (ih (i + 1)).bind fun rest => .pure _

theorem findAllFrom_runFresh_iff (i : Nat) {found : List (Nat × Match)}
    (hroom : (rules.map fun r => r.draws checker limit host).sum < 3 * 2 ^ 62) :
    (findAllFrom checker limit host i rules).runFresh = some found ↔
      (∀ r ∈ rules, ∀ m ∈ r.candidatesWithin limit host, (r.accepts checker m).runFresh.isSome) ∧
        found = (rules.zipIdx i).flatMap fun entry =>
          ((entry.1.occurrences checker host).filter (·.path.within limit)).map (entry.2, ·) := by
  induction rules generalizing i found with
  | nil =>
    show some [] = some found ↔ _
    rw [Option.some.injEq, eq_comm, List.zipIdx_nil, List.flatMap_nil]
    exact (and_iff_right (List.forall_mem_nil _)).symm
  | cons r rules ih =>
    rw [List.map_cons, List.sum_cons] at hroom
    -- A search draws variables, but what the later rules find does not depend on how many.
    have hsearch : (findAllFrom checker limit host i (r :: rules)).runFresh =
        (r.findMatches checker host limit).runFresh.bind fun here =>
          (findAllFrom checker limit host (i + 1) rules).runFresh.map fun rest =>
            here.map (i, ·) ++ rest := by
      have hrest := steady_findAllFrom henv hlocals hhost limit (i + 1) rules
      rw [findAllFrom, (r.steady_findMatches henv hlocals hhost limit).runFresh_bind
        (fun here => hrest.bind (l := 0) fun rest => .pure _) (by omega)]
      congr 1
      funext here
      rw [hrest.runFresh_bind (fun rest => .pure _) (by omega)]
      cases (findAllFrom checker limit host (i + 1) rules).runFresh <;> rfl
    rw [hsearch, List.zipIdx_cons, List.flatMap_cons, List.forall_mem_cons]
    constructor
    · intro h
      obtain ⟨here, hhere, h⟩ := Option.bind_eq_some_iff.mp h
      obtain ⟨rest, hrest, rfl⟩ := Option.map_eq_some_iff.mp h
      obtain ⟨hends, rfl⟩ := (r.findMatches_runFresh_iff henv hlocals hhost (by omega)).mp hhere
      obtain ⟨hends', rfl⟩ := (ih (i + 1) (by omega)).mp hrest
      exact ⟨⟨hends, hends'⟩, rfl⟩
    · rintro ⟨⟨hends, hends'⟩, rfl⟩
      rw [(r.findMatches_runFresh_iff henv hlocals hhost (by omega)).mpr ⟨hends, rfl⟩,
        (ih (i + 1) (by omega)).mpr ⟨hends', rfl⟩]
      rfl

end

/-- In a term without variables of the checker, a search lists the occurrences
of the rules: rule by rule, each in pre-order, with the place of the rule, and
no deeper than the limit.  It does so just if the checker ends on each
candidate. -/
theorem findAll_eq_some_iff (henv : checker.env.FVarFree)
    (hlocals : checker.locals.FVarsIn FVarId.IsOuter) (hhost : host.FVarsIn FVarId.IsOuter)
    (hs : Checker.firstFresh ≤ s)
    (hroom : s.toNat + (rules.map fun r => r.draws checker limit host).sum < 2 ^ 64) :
    (∀ found, (findAll checker limit rules host).run' s = some found ↔
      (∀ r ∈ rules, ∀ m ∈ r.candidatesWithin limit host, (r.accepts checker m).runFresh.isSome) ∧
        found = rules.zipIdx.flatMap fun entry =>
          ((entry.1.occurrences checker host).filter (·.path.within limit)).map (entry.2, ·)) ∧
    ∀ r ∈ rules,
      (r.occurrences checker host).Pairwise (fun m m' => m.path.Before m'.path) ∧
      ∀ m, m ∈ r.occurrences checker host ↔
        host.subterm? m.path = some m.subterm ∧ m.subterm.hasLooseBVars = false ∧
          r.match? m.subterm = some m.subst ∧
            (r.wellTyped checker m.subst).runFresh = some true := by
  refine ⟨fun found => ?_, fun r _ => ⟨r.occurrences_pairwise checker host,
    fun m => Rule.mem_occurrences_iff⟩⟩
  have hsteady := steady_findAllFrom henv hlocals hhost limit 0 rules
  rw [findAll, hsteady.run'_eq hs hroom]
  refine findAllFrom_runFresh_iff henv hlocals hhost 0 ?_
  rw [UInt64.le_iff_toNat_le, Environment.toNat_firstFresh] at hs
  omega

end

/-! ### Two functions -/

namespace Enumeration

/-- The natural numbers. -/
def nat : Expr := .const Vocabulary.nat []

/-- The functions from numbers to texts. -/
def functions : Expr := .arrow nat (.const Vocabulary.string [])

/-- The number of a function. -/
def number (f : Expr) : Expr := .app (.const (.simple "K") []) f

/-- The prelude with numbers of functions, a number, a text, and the rule that
all functions have that number. -/
def env : Environment := ⟨Prelude.constants ++
  [⟨.simple "K", [], .arrow functions nat, none⟩, ⟨.simple "c", [], nat, none⟩,
    ⟨.simple "t", [], .const Vocabulary.string [], none⟩,
    ⟨.simple "r", [], .pi .default functions
      (.mkEq .one nat (number (.bvar 0)) (.const (.simple "c") [])), none⟩,
    ⟨.simple "S", [], .arrow nat nat, none⟩,
    ⟨.simple "Q", [], .arrow nat (.arrow nat .prop), none⟩]⟩

/-- The rule. -/
def rule : Rule :=
  ⟨.const (.simple "r") [], [functions],
    ⟨.eq, .one, nat, number (.bvar 0), .const (.simple "c") []⟩, false, "r"⟩

/-- The function with one value. -/
def constantly (e : Expr) : Expr := .lam .default nat e

/-- A statement about two functions, of which the second one, whose value is a
variable, is nearer to the root. -/
def host (x : FVarId) : Expr :=
  .mkApp (.const (.simple "Q") [])
    [.app (.const (.simple "S") []) (number (constantly (.const (.simple "t") []))),
      number (constantly (.fvar x))]

/-- A checker that knows the variable as a text. -/
def checker (x : FVarId) : Checker :=
  ⟨env, .push .empty x (.simple "F") (.const Vocabulary.string []), 8⟩

/-- The second function as it is found. -/
def nearer (x : FVarId) : Match :=
  ⟨[.appArg], number (constantly (.fvar x)), [some (constantly (.fvar x))]⟩

end Enumeration

open Enumeration in
/-- One step deep the second function is found, if its value is a variable of
the proof. -/
theorem nearer_function_found :
    (env.FVarFree ∧ (checker ⟨0⟩).locals.FVarsIn FVarId.IsOuter ∧
      (host ⟨0⟩).FVarsIn FVarId.IsOuter) ∧
    (findAll (checker ⟨0⟩) (some 1) [rule] (host ⟨0⟩)).run' Checker.firstFresh =
      some [(0, nearer ⟨0⟩)] := by
  have henv : env.FVarFree := Environment.fvarFree_prelude_append (by decide)
  have hlocals : (checker ⟨0⟩).locals.FVarsIn FVarId.IsOuter := by
    intro entry hentry
    obtain rfl := List.mem_singleton.mp hentry
    decide
  have hhost : (host ⟨0⟩).FVarsIn FVarId.IsOuter := by decide
  refine ⟨⟨henv, hlocals, hhost⟩, ?_⟩
  have hlist : ∀ found, (findAll (checker ⟨0⟩) (some 1) [rule] (host ⟨0⟩)).run'
      Checker.firstFresh = some found ↔ _ :=
    (findAll_eq_some_iff henv hlocals hhost UInt64.le_rfl (by decide +kernel)).1
  exact (hlist _).mpr ⟨by decide +kernel, by decide +kernel⟩

open Enumeration in
/-- A search that asks about the first function before draws a variable for it,
and so takes the next variable that the checker draws, if it is the value of the
second function, for a number: the second function is not listed, although a
checker that has drawn no variable yet accepts it. -/
theorem captured_function_passed_over :
    ¬ ∀ (checker : Checker) (limit : Option Nat) (rules : List Rule) (host : Expr)
      (found : List (Nat × Match)), (findAll checker limit rules host).runFresh = some found →
        found = rules.zipIdx.flatMap fun entry =>
          ((entry.1.occurrences checker host).filter (·.path.within limit)).map (entry.2, ·) := by
  intro h
  let x : FVarId := ⟨Checker.firstFresh + 1⟩
  have hfound : ((findAll (checker x) none [rule] (host x)).runFresh.map List.length) = some 1 := by
    decide +kernel
  obtain ⟨found, hfound, hlength⟩ := Option.map_eq_some_iff.mp hfound
  rw [h _ _ _ _ _ hfound] at hlength
  exact absurd hlength (by decide +kernel)

end Pinpoint
