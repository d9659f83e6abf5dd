/-
Levels that are identified, at other levels.

The checker and the matcher take two levels for one if they are simplified to
one.  Simplification can be done before parameters are replaced or after, so
such levels stay identified whatever is put for their parameters.  This carries
over to all terms that the checker finds equal, and to matches: the values of a
match at other levels are the old values at these levels.

* `Matches.instantiateLevels` — a match at other levels;
* `decides_sort_iff` — when the checker takes two universes for one;
* `identified_at_instances` — what is identified stays so at all levels.
-/
import Pinpoint.Proofs.DefinitionalEquality
import Pinpoint.Proofs.LevelInstances
import Pinpoint.Proofs.Matching

namespace Pinpoint

variable {s : List (Name × Level)}

namespace Expr

theorem instantiateLevels_stripMData (e : Expr) :
    e.stripMData.instantiateLevels s = (e.instantiateLevels s).stripMData := by
  induction e with
  | mdata _ _ ih => exact ih
  | _ => rfl

theorem stripMData_instantiateLevels {e e' : Expr} (h : e.stripMData = e') :
    (e.instantiateLevels s).stripMData = e'.instantiateLevels s := by
  rw [← instantiateLevels_stripMData, h]

theorem hasLooseBVarInRange_instantiateLevels (e : Expr) (start stop : UInt32) :
    (e.instantiateLevels s).hasLooseBVarInRange start stop = e.hasLooseBVarInRange start stop := by
  induction e generalizing start stop with
  | app _ _ ihf iha => simp only [instantiateLevels, hasLooseBVarInRange, ihf, iha]
  | lam _ _ _ iht ihb | pi _ _ _ iht ihb =>
    simp only [instantiateLevels, hasLooseBVarInRange, iht, ihb]
  | letE _ _ _ iht ihv ihb => simp only [instantiateLevels, hasLooseBVarInRange, iht, ihv, ihb]
  | mdata _ _ ih => exact ih start stop
  | _ => rfl

theorem hasLooseBVars_instantiateLevels (e : Expr) :
    (e.instantiateLevels s).hasLooseBVars = e.hasLooseBVars :=
  hasLooseBVarInRange_instantiateLevels e 0 maxIndex

/-- The skeleton of a term determines that of the term at other levels. -/
theorem skeleton_instantiateLevels (e : Expr) :
    (e.skeleton.instantiateLevels s).skeleton = (e.instantiateLevels s).skeleton := by
  induction e with
  | sort l => exact congrArg sort (l.simplify_instantiate s)
  | app _ _ ihf iha => simp only [skeleton, instantiateLevels, ihf, iha]
  | lam _ _ _ iht ihb | pi _ _ _ iht ihb => simp only [skeleton, instantiateLevels, iht, ihb]
  | letE _ _ _ iht ihv ihb => simp only [skeleton, instantiateLevels, iht, ihv, ihb]
  | mdata _ _ ih => exact ih
  | _ => rfl

theorem skeleton_instantiateLevels_congr {e e' : Expr} (h : e.skeleton = e'.skeleton) :
    (e.instantiateLevels s).skeleton = (e'.instantiateLevels s).skeleton := by
  rw [← skeleton_instantiateLevels, h, skeleton_instantiateLevels]

end Expr

/-! ### Matches -/

/-- The values with universe parameters replaced. -/
def Substitution.instantiateLevels (s : List (Name × Level)) (u : Substitution) : Substitution :=
  u.map (Option.map (Expr.instantiateLevels s))

theorem Substitution.bind?_instantiateLevels {u w : Substitution} {k : Nat} {e : Expr}
    (h : u.bind? k e = some w) :
    (u.instantiateLevels s).bind? k (e.instantiateLevels s) = some (w.instantiateLevels s) := by
  rw [bind?_eq_some_iff] at h ⊢
  unfold instantiateLevels
  rw [List.length_map, List.getElem?_map]
  obtain ⟨hk, ⟨old, hold, heq, rfl⟩ | ⟨hnone, rfl⟩⟩ := h
  · refine ⟨hk, .inl ⟨old.instantiateLevels s, ?_, Expr.skeleton_instantiateLevels_congr heq, rfl⟩⟩
    rw [hold]
    rfl
  · refine ⟨hk, .inr ⟨?_, ?_⟩⟩
    · rw [hnone]
      rfl
    · rw [List.map_set]
      rfl

/-- A term that a pattern matches is matched by the pattern at other levels, once
these are put into the term, and into the values. -/
theorem Matches.instantiateLevels {p e : Expr} {d : UInt32} {u w : Substitution}
    (h : Matches p d e u w) (s : List (Name × Level)) :
    Matches (p.instantiateLevels s) d (e.instantiateLevels s) (u.instantiateLevels s)
      (w.instantiateLevels s) := by
  -- the same rule applies, since nothing that it looks at depends on universes but the
  -- comparisons of levels, and these have the same outcome
  induction h with
  | mdata _ ih => exact .mdata ih
  | value hdi hloose hbind =>
    refine .value hdi ?_ ?_
    · rw [← Expr.instantiateLevels_stripMData, Expr.hasLooseBVars_instantiateLevels, hloose]
    · rw [← Expr.instantiateLevels_stripMData]
      exact Substitution.bind?_instantiateLevels hbind
  | bound hid he => exact .bound hid (Expr.stripMData_instantiateLevels he)
  | app he _ _ ihf iha => exact .app (Expr.stripMData_instantiateLevels he) ihf iha
  | lam he _ _ iht ihb => exact .lam (Expr.stripMData_instantiateLevels he) iht ihb
  | pi he _ _ iht ihb => exact .pi (Expr.stripMData_instantiateLevels he) iht ihb
  | letE he _ _ _ iht ihv ihb => exact .letE (Expr.stripMData_instantiateLevels he) iht ihv ihb
  | sort he hl =>
    exact .sort (Expr.stripMData_instantiateLevels he) (Environment.simplify_instantiate_congr hl)
  | const he hls =>
    exact .const (Expr.stripMData_instantiateLevels he) (Environment.map_simplify_instantiate hls)
  | fvar he => exact .fvar (Expr.stripMData_instantiateLevels he)
  | lit he => exact .lit (Expr.stripMData_instantiateLevels he)

theorem matchAt?_instantiateLevels {p e : Expr} {d : UInt32} {u w : Substitution}
    (h : matchAt? p d e u = some w) (s : List (Name × Level)) :
    matchAt? (p.instantiateLevels s) d (e.instantiateLevels s) (u.instantiateLevels s) =
      some (w.instantiateLevels s) :=
  ((matches_of_matchAt? h).instantiateLevels s).matchAt?_eq_some

/-- The matcher takes two universes for one if they are simplified to one. -/
theorem matchAt?_sort_iff {l l' : Level} {d : UInt32} {u : Substitution} :
    matchAt? (.sort l) d (.sort l') u = some u ↔ l.simplify = l'.simplify := by
  rw [matchAt?_eq_some_iff]
  constructor
  · intro h
    cases h with
    | sort he hl => exact Expr.sort.inj he ▸ hl
  · exact fun hl => .sort rfl hl

/-! ### Definitional equality -/

namespace Environment

/-- The checker takes two universes for one if they are simplified to one. -/
theorem decides_sort_iff {env : Environment} {t : Transparency} {l l' : Level} {r : Bool} :
    env.Decides t (.sort l) (.sort l') r ↔ r = decide (l.simplify = l'.simplify) := by
  have htwo : env.isDefEq t 2 (.sort l) (.sort l') = some (decide (l.simplify = l'.simplify)) := by
    rw [isDefEq_succ]
    split
    · rename_i heq
      rw [Expr.sort.inj heq, decide_eq_true rfl]
    · rfl
  -- two calls are enough, and any number of calls has the same answer
  constructor
  · exact fun h => Decides.det h ⟨2, htwo⟩
  · rintro rfl
    exact ⟨2, htwo⟩

/-- Levels can be simplified before their parameters are replaced.  So levels that the
checker and the matcher take for one, because they are simplified to one, stay so at
all levels; and so do terms that are found equal, where constants mention constants
of the environment and universe parameters of their own, and terms and patterns that
match. -/
theorem identified_at_instances (s : List (Name × Level)) (l l' : Level) :
    (l.simplify.instantiate s).simplify = (l.instantiate s).simplify ∧
      (∀ (env : Environment) (t : Transparency),
        (env.Decides t (.sort l) (.sort l') true ↔ l.simplify = l'.simplify) ∧
        (env.Decides t (.sort l) (.sort l') true →
          env.Decides t (.sort (l.instantiate s)) (.sort (l'.instantiate s)) true)) ∧
      (∀ (d : UInt32) (u : Substitution),
        (matchAt? (.sort l) d (.sort l') u = some u ↔ l.simplify = l'.simplify) ∧
        (matchAt? (.sort l) d (.sort l') u = some u →
          matchAt? (.sort (l.instantiate s)) d (.sort (l'.instantiate s)) u = some u)) ∧
      (∀ (env : Environment) (t : Transparency) (n : Nat) (a b : Expr), env.SelfContained →
        env.OwnParams → a.ConstsIn env.Declares → b.ConstsIn env.Declares →
          env.isDefEq t n a b = some true →
            env.isDefEq t n (a.instantiateLevels s) (b.instantiateLevels s) = some true) ∧
      ∀ (p e : Expr) (d : UInt32) (u w : Substitution), matchAt? p d e u = some w →
        matchAt? (p.instantiateLevels s) d (e.instantiateLevels s) (u.instantiateLevels s) =
          some (w.instantiateLevels s) := by
  have hchecker : ∀ {env : Environment} {t : Transparency} {l l' : Level},
      env.Decides t (.sort l) (.sort l') true ↔ l.simplify = l'.simplify := by
    intro env t l l'
    rw [decides_sort_iff, eq_comm, decide_eq_true_iff]
  refine ⟨l.simplify_instantiate s, fun env t => ⟨hchecker, fun h => ?_⟩,
    fun d u => ⟨matchAt?_sort_iff, fun h => ?_⟩, ?_, ?_⟩
  · exact hchecker.mpr (simplify_instantiate_congr (hchecker.mp h))
  · exact matchAt?_sort_iff.mpr (simplify_instantiate_congr (matchAt?_sort_iff.mp h))
  · intro env t n a b hself hown ha hb hab
    exact isDefEq_instantiateLevels ⟨hself, .inr hown, List.prefix_refl _⟩ ha hb hab
  · exact fun p e d u w h => matchAt?_instantiateLevels h s

namespace IdentifiedExample

open LevelInstanceExample

/-- A parameter, in a spelling that is simplified. -/
def spelled : Level := .max (.param (.simple "u")) (.imax .one .zero)

/-- A predicate, at the parameter, of a variable. -/
def pattern : Expr := .app (.const (.simple "A") [.param (.simple "u")]) (.bvar 0)

/-- The predicate of a universe. -/
def term : Expr := .app (.const (.simple "A") [spelled]) (.sort spelled)

/-- The parameter is to be `1`. -/
def atOne : List (Name × Level) := [(.simple "u", .one)]

end IdentifiedExample

open LevelInstanceExample IdentifiedExample in
theorem identified_at_one :
    isDefEq ⟨[predicate]⟩ .all 3 (.const (.simple "A") [.one])
        (.const (.simple "A") [spelled.instantiate atOne]) = some true ∧
      matchAt? (pattern.instantiateLevels atOne) 0 (term.instantiateLevels atOne) [none] =
        some [some (.sort (spelled.instantiate atOne))] ∧
      Decides ⟨[predicate]⟩ .all (.sort .one) (.sort (spelled.instantiate atOne)) true := by
  obtain ⟨-, hsort, -, hterm, hmatch⟩ :=
    identified_at_instances atOne (.param (.simple "u")) spelled
  have hown : OwnParams ⟨[predicate]⟩ := List.forall_mem_singleton.mpr ⟨by decide, nofun⟩
  have hdeclared : Declares ⟨[predicate]⟩ (.simple "A") 1 := ⟨predicate, rfl, rfl⟩
  exact ⟨hterm ⟨[predicate]⟩ .all 3 (.const (.simple "A") [.param (.simple "u")])
      (.const (.simple "A") [spelled]) checked_predicate.selfContained hown hdeclared hdeclared rfl,
    hmatch pattern term 0 [none] [some (.sort spelled)] (by decide),
    (hsort ⟨[predicate]⟩ .all).2 ⟨2, rfl⟩⟩

end Environment

end Pinpoint
