/-
What a match is.

Matching fills in values one after the other and never changes one
(`Substitution.Le`); no bound variable is loose in a value.

* `Matches` — the steps of matching, as a relation;
* `matchAt?_spec` — the pattern with the values of a match has the canonical
  form of the term that was matched: it is the same up to metadata, binder
  annotations and the simplification of all universes;
* `Rule.match?_spec` — the same for a rule, all of whose variables have
  values;
* `subterm_of_matchAt?` — the values are parts of the term that was matched.
-/
import Pinpoint.Proofs.Skeleton
import Pinpoint.Rewrite.Matching

namespace Pinpoint

namespace Substitution

/-- Whether `t` has all the values of `s`. -/
structure Le (s t : Substitution) : Prop where
  length_eq : s.length = t.length
  value : ∀ {k : Nat} {v : Expr}, s[k]? = some (some v) → t[k]? = some (some v)

/-- Whether no bound variable is loose in a value. -/
def Closed (s : Substitution) : Prop := ∀ v, some v ∈ s → v.hasLooseBVars = false

theorem Le.refl (s : Substitution) : s.Le s := ⟨rfl, id⟩

theorem Le.trans {s t u : Substitution} (h : s.Le t) (h' : t.Le u) : s.Le u :=
  ⟨h.length_eq.trans h'.length_eq, fun hv => h'.value (h.value hv)⟩

/-- Giving a variable a value leaves the values as they are, if it had the same, and
is its only change, if it had none. -/
theorem bind?_eq_some_iff {s t : Substitution} {k : Nat} {e : Expr} :
    s.bind? k e = some t ↔ k < s.length ∧
      ((∃ old, s[s.length - 1 - k]? = some (some old) ∧ old.skeleton = e.skeleton ∧ s = t) ∨
        s[s.length - 1 - k]? = some none ∧ s.set (s.length - 1 - k) (some e) = t) := by
  unfold bind?
  by_cases hk : k < s.length
  · obtain ⟨v, hv⟩ : ∃ v, s[s.length - 1 - k]? = some v :=
      ⟨_, List.getElem?_eq_getElem (by omega)⟩
    rw [if_pos hk]
    cases v with
    | none => simp [hk, hv]
    | some old => simp [hk, hv, Expr.eqModMData_iff]
  · simp [hk]

/-- Giving a variable a value keeps all others, and leaves the variable with
a value that is the given one up to metadata. -/
theorem bind?_spec {s t : Substitution} {k : Nat} {e : Expr} (h : s.bind? k e = some t)
    (hs : s.Closed) (he : e.hasLooseBVars = false) :
    s.Le t ∧ t.Closed ∧ k < t.length ∧
      ∃ v, t[t.length - 1 - k]? = some (some v) ∧ v.skeleton = e.skeleton := by
  obtain ⟨hk, ⟨old, hold, heq, rfl⟩ | ⟨hnone, rfl⟩⟩ := bind?_eq_some_iff.mp h
  · exact ⟨.refl s, hs, hk, old, hold, heq⟩
  · refine ⟨⟨by simp, fun {j v} hv => ?_⟩, fun v hv => ?_, by simpa using hk, e, ?_, rfl⟩
    · have hj : s.length - 1 - k ≠ j := by
        rintro rfl
        cases hnone.symm.trans hv
      rwa [List.getElem?_set_ne hj]
    · rcases List.mem_or_eq_of_mem_set hv with hv | hv
      · exact hs v hv
      · exact Option.some.inj hv ▸ he
    · rw [List.length_set, List.getElem?_set_self (by omega)]

/-- A value after a variable was given one is that or a value from before. -/
theorem mem_of_bind? {s t : Substitution} {k : Nat} {e : Expr} {Q : Expr → Prop}
    (h : s.bind? k e = some t) (hs : ∀ v, some v ∈ s → Q v) (he : Q e) :
    ∀ v, some v ∈ t → Q v := by
  obtain ⟨-, ⟨old, -, -, rfl⟩ | ⟨-, rfl⟩⟩ := bind?_eq_some_iff.mp h
  · exact hs
  · intro v hv
    rcases List.mem_or_eq_of_mem_set hv with hv | hv
    · exact hs v hv
    · exact Option.some.inj hv ▸ he

end Substitution

namespace Expr

/-- What `instantiateRev` puts in the place of a bound variable. -/
def revVar (vals : List Expr) (d i : UInt32) : Expr :=
  if i < d then .bvar i
  else
    match vals.reverse[(i - d).toNat]? with
    | some v => v.lift d
    | none => .bvar (i - UInt32.ofNat vals.length)

theorem instantiateRev_eq_mapVars (e : Expr) (vals : List Expr) :
    e.instantiateRev vals = mapVars (revVar vals) (fun _ x => .fvar x) 0 e := rfl

theorem revVar_of_lt {vals : List Expr} {d i : UInt32} (h : i < d) : revVar vals d i = .bvar i :=
  if_pos h

/-- A variable of the telescope stands for its value. -/
theorem revVar_of_value {vals : List Expr} {d i : UInt32} {v : Expr} (h : d ≤ i)
    (hv : vals.reverse[(i - d).toNat]? = some v) : revVar vals d i = v.lift d := by
  rw [revVar, if_neg (by simpa using h), hv]

theorem exists_value {vals : List Expr} {d i : UInt32} (h : d ≤ i)
    (hi : i.toNat < vals.length + d.toNat) :
    ∃ v ∈ vals, vals.reverse[(i - d).toNat]? = some v := by
  have hle := UInt32.le_iff_toNat_le.mp h
  have hlt : (i - d).toNat < vals.reverse.length := by
    rw [List.length_reverse, UInt32.toNat_sub_of_le _ _ h]
    omega
  have hv := List.getElem?_eq_getElem hlt
  exact ⟨_, List.mem_reverse.mp (List.mem_of_getElem? hv), hv⟩

end Expr

/-! ### The steps of a match -/

/-- How a pattern under `d` binders matches a term and turns values into values: the
graph of `matchAt?`, with a rule for each form of the pattern. -/
inductive Matches : Expr → UInt32 → Expr → Substitution → Substitution → Prop
  | mdata {m p d e s t} : Matches p d e s t → Matches (.mdata m p) d e s t
  | value {i d e s t} : d ≤ i → e.stripMData.hasLooseBVars = false →
      s.bind? (i - d).toNat e.stripMData = some t → Matches (.bvar i) d e s t
  | bound {i d e s} : i < d → e.stripMData = .bvar i → Matches (.bvar i) d e s s
  | app {pf pa d e f a s u t} : e.stripMData = .app f a → Matches pf d f s u →
      Matches pa d a u t → Matches (.app pf pa) d e s t
  | lam {i j pt pb d e a b s u t} : e.stripMData = .lam j a b → Matches pt d a s u →
      Matches pb (d + 1) b u t → Matches (.lam i pt pb) d e s t
  | pi {i j pt pb d e a b s u t} : e.stripMData = .pi j a b → Matches pt d a s u →
      Matches pb (d + 1) b u t → Matches (.pi i pt pb) d e s t
  | letE {pt pv pb d e a v b s u w t} : e.stripMData = .letE a v b → Matches pt d a s u →
      Matches pv d v u w → Matches pb (d + 1) b w t → Matches (.letE pt pv pb) d e s t
  | sort {l l' d e s} : e.stripMData = .sort l' → l.simplify = l'.simplify →
      Matches (.sort l) d e s s
  | const {n ls ls' d e s} : e.stripMData = .const n ls' →
      ls.map Level.simplify = ls'.map Level.simplify → Matches (.const n ls) d e s s
  | fvar {x d e s} : e.stripMData = .fvar x → Matches (.fvar x) d e s s
  | lit {l d e s} : e.stripMData = .lit l → Matches (.lit l) d e s s

section
variable {p e : Expr} {d : UInt32} {s t : Substitution}

theorem Matches.matchAt?_eq_some (h : Matches p d e s t) : matchAt? p d e s = some t := by
  induction h with
  | mdata _ ih => simpa only [matchAt?] using ih
  | value hdi hloose hbind =>
    simp only [matchAt?, if_pos hdi, hloose, hbind, if_neg Bool.false_ne_true]
  | bound hid he =>
    rw [matchAt?, if_neg (by simpa using hid)]
    exact if_pos he
  | app he _ _ ihf iha => simp only [matchAt?, he, ihf, iha, Option.bind_some]
  | lam he _ _ iht ihb | pi he _ _ iht ihb => simp only [matchAt?, he, iht, ihb, Option.bind_some]
  | letE he _ _ _ iht ihv ihb => simp only [matchAt?, he, iht, ihv, ihb, Option.bind_some]
  | sort he hl =>
    simp only [matchAt?, he]
    exact if_pos hl
  | const he hls =>
    simp only [matchAt?, he]
    exact if_pos ⟨trivial, hls⟩
  | fvar he | lit he =>
    simp only [matchAt?]
    exact if_pos he.symm

theorem matches_bvar_of_matchAt? {i : UInt32} (h : matchAt? (.bvar i) d e s = some t) :
    Matches (.bvar i) d e s t := by
  simp only [matchAt?] at h
  by_cases hdi : d ≤ i
  · rw [if_pos hdi] at h
    split at h
    · cases h
    · rename_i hloose
      exact .value hdi (by simpa using hloose) h
  · rw [if_neg hdi] at h
    split at h
    · rename_i he
      exact Option.some.inj h ▸ .bound (by simpa using hdi) he
    · cases h

theorem matches_of_matchAt? (h : matchAt? p d e s = some t) : Matches p d e s t := by
  induction p generalizing d e s t with
  | mdata m p ih => exact .mdata (ih (by simpa only [matchAt?] using h))
  | bvar i => exact matches_bvar_of_matchAt? h
  -- The term has the form of the pattern under its metadata, and the parts of the
  -- pattern match its parts one after the other.
  | app pf pa ihf iha =>
    simp only [matchAt?] at h
    split at h
    · rename_i he
      obtain ⟨u, hu, ht⟩ := Option.bind_eq_some_iff.mp h
      exact .app he (ihf hu) (iha ht)
    · cases h
  | lam i pt pb iht ihb =>
    simp only [matchAt?] at h
    split at h
    · rename_i he
      obtain ⟨u, hu, ht⟩ := Option.bind_eq_some_iff.mp h
      exact .lam he (iht hu) (ihb ht)
    · cases h
  | pi i pt pb iht ihb =>
    simp only [matchAt?] at h
    split at h
    · rename_i he
      obtain ⟨u, hu, ht⟩ := Option.bind_eq_some_iff.mp h
      exact .pi he (iht hu) (ihb ht)
    · cases h
  | letE pt pv pb iht ihv ihb =>
    simp only [matchAt?] at h
    split at h
    · rename_i he
      obtain ⟨w, hw, ht⟩ := Option.bind_eq_some_iff.mp h
      obtain ⟨u, hu, hw⟩ := Option.bind_eq_some_iff.mp hw
      exact .letE he (iht hu) (ihv hw) (ihb ht)
    · cases h
  | sort l =>
    simp only [matchAt?] at h
    split at h
    · rename_i he
      split at h
      · rename_i hl
        exact Option.some.inj h ▸ .sort he hl
      · cases h
    · cases h
  | const n ls =>
    simp only [matchAt?] at h
    split at h
    · rename_i he
      split at h
      · rename_i heq
        obtain ⟨rfl, hls⟩ := heq
        exact Option.some.inj h ▸ .const he hls
      · cases h
    · cases h
  | fvar x =>
    simp only [matchAt?] at h
    split at h
    · rename_i he
      exact Option.some.inj h ▸ .fvar he.symm
    · cases h
  | lit l =>
    simp only [matchAt?] at h
    split at h
    · rename_i he
      exact Option.some.inj h ▸ .lit he.symm
    · cases h

theorem matchAt?_eq_some_iff : matchAt? p d e s = some t ↔ Matches p d e s t :=
  ⟨matches_of_matchAt?, Matches.matchAt?_eq_some⟩

end

open Pinpoint.Expr in
/-- A pattern with the values of a match has the canonical form of the term
that was matched, also with the values of any later match. -/
theorem matchAt?_spec {p : Expr} {d : UInt32} {e : Expr} {s t : Substitution}
    (h : matchAt? p d e s = some t) (hs : s.Closed) :
    s.Le t ∧ t.Closed ∧ ∀ vals : List Expr, t.Le (vals.map some) →
      (mapVars (revVar vals) (fun _ x => .fvar x) d p).canonical = e.canonical := by
  rw [matchAt?_eq_some_iff] at h
  -- Every rule looks at the term under its metadata, which its canonical form does not
  -- have; the values of a part are still those of the whole.
  induction h with
  | mdata _ ih =>
    obtain ⟨hle, hclosed, hp⟩ := ih hs
    exact ⟨hle, hclosed, fun vals hvals => hp vals hvals⟩
  | @value i d e s t hdi hloose hbind =>
    obtain ⟨hle, ht, hk, v, hv, hve⟩ := Substitution.bind?_spec hbind hs hloose
    refine ⟨hle, ht, fun vals hvals => ?_⟩
    have hlen : t.length = vals.length := by simpa using hvals.length_eq
    have hget : vals.reverse[(i - d).toNat]? = some v := by
      rw [List.getElem?_reverse (by omega), ← hlen]
      simpa using hvals.value hv
    -- The value is closed, so it is the same under the binders.
    rw [mapVars, revVar_of_value hdi hget, ← canonical_stripMData e,
      lift_eq_self (ht v (List.mem_of_getElem? hv))]
    exact canonical_eq_of_skeleton_eq hve
  | @bound i d e s hid he =>
    refine ⟨.refl s, hs, fun vals _ => ?_⟩
    rw [mapVars, revVar_of_lt hid, ← canonical_stripMData e, he]
  | @app pf pa d e f a s u t he _ _ ihf iha =>
    obtain ⟨hle, hclosed, hf⟩ := ihf hs
    obtain ⟨hle', hclosed', ha⟩ := iha hclosed
    refine ⟨hle.trans hle', hclosed', fun vals hvals => ?_⟩
    rw [← canonical_stripMData e, he, mapVars, canonical_app, canonical_app,
      hf vals (hle'.trans hvals), ha vals hvals]
  | @lam i j pt pb d e a b s u t he _ _ iht ihb =>
    obtain ⟨hle, hclosed, ht⟩ := iht hs
    obtain ⟨hle', hclosed', hb⟩ := ihb hclosed
    refine ⟨hle.trans hle', hclosed', fun vals hvals => ?_⟩
    rw [← canonical_stripMData e, he, mapVars, canonical_lam, canonical_lam,
      ht vals (hle'.trans hvals), hb vals hvals]
  | @pi i j pt pb d e a b s u t he _ _ iht ihb =>
    obtain ⟨hle, hclosed, ht⟩ := iht hs
    obtain ⟨hle', hclosed', hb⟩ := ihb hclosed
    refine ⟨hle.trans hle', hclosed', fun vals hvals => ?_⟩
    rw [← canonical_stripMData e, he, mapVars, canonical_pi, canonical_pi,
      ht vals (hle'.trans hvals), hb vals hvals]
  | @letE pt pv pb d e a v b s u w t he _ _ _ iht ihv ihb =>
    obtain ⟨hle, hclosed, ht⟩ := iht hs
    obtain ⟨hle', hclosed', hv⟩ := ihv hclosed
    obtain ⟨hle'', hclosed'', hb⟩ := ihb hclosed'
    refine ⟨(hle.trans hle').trans hle'', hclosed'', fun vals hvals => ?_⟩
    rw [← canonical_stripMData e, he, mapVars, canonical_letE, canonical_letE,
      ht vals ((hle'.trans hle'').trans hvals), hv vals (hle''.trans hvals), hb vals hvals]
  | @sort l l' d e s he hl =>
    refine ⟨.refl s, hs, fun vals _ => ?_⟩
    rw [← canonical_stripMData e, he, mapVars, canonical_sort, canonical_sort, hl]
  | @const n ls ls' d e s he hls =>
    refine ⟨.refl s, hs, fun vals _ => ?_⟩
    rw [← canonical_stripMData e, he, mapVars, canonical_const, canonical_const, hls]
  | @fvar x d e s he =>
    refine ⟨.refl s, hs, fun vals _ => ?_⟩
    rw [← canonical_stripMData e, he, mapVars]
  | @lit l d e s he =>
    refine ⟨.refl s, hs, fun vals _ => ?_⟩
    rw [← canonical_stripMData e, he, mapVars]

/-- The values of a match are parts of the term that is matched. -/
theorem subterm_of_matchAt? {p : Expr} {d : UInt32} {e : Expr} {s t : Substitution}
    (h : matchAt? p d e s = some t) {v : Expr} (hv : some v ∈ t) :
    some v ∈ s ∨ ∃ π, e.subterm? π = some v := by
  rw [matchAt?_eq_some_iff] at h
  -- every rule looks at the term under its metadata, which has no positions
  simp only [← Expr.subterm?_stripMData e]
  induction h with
  | mdata _ ih => exact ih hv
  | @value i d e s t _ _ hbind =>
    refine Substitution.mem_of_bind?
      (Q := fun v => some v ∈ s ∨ ∃ π, e.stripMData.subterm? π = some v) hbind
      (fun v hv => .inl hv) (.inr ⟨[], ?_⟩) v hv
    rw [Expr.subterm?_stripMData, Expr.subterm?_nil]
  | app he _ _ ihf iha =>
    rw [he]
    simp only [Expr.subterm?_stripMData] at ihf iha
    rcases iha hv with hv | ⟨π, hπ⟩
    · exact (ihf hv).imp_right fun ⟨π, hπ⟩ => ⟨.appFn :: π, hπ⟩
    · exact .inr ⟨.appArg :: π, hπ⟩
  | lam he _ _ iht ihb | pi he _ _ iht ihb =>
    rw [he]
    simp only [Expr.subterm?_stripMData] at iht ihb
    rcases ihb hv with hv | ⟨π, hπ⟩
    · exact (iht hv).imp_right fun ⟨π, hπ⟩ => ⟨.binderType :: π, hπ⟩
    · exact .inr ⟨.binderBody :: π, hπ⟩
  | letE he _ _ _ iht ihv ihb =>
    rw [he]
    simp only [Expr.subterm?_stripMData] at iht ihv ihb
    rcases ihb hv with hv | ⟨π, hπ⟩
    · rcases ihv hv with hv | ⟨π, hπ⟩
      · exact (iht hv).imp_right fun ⟨π, hπ⟩ => ⟨.letType :: π, hπ⟩
      · exact .inr ⟨.letValue :: π, hπ⟩
    · exact .inr ⟨.letBody :: π, hπ⟩
  | _ => exact .inl hv

/-- A bound variable is matched by a variable of the pattern only. -/
theorem value_of_matchAt?_bvar {p e : Expr} {s t : Substitution} {i : UInt32}
    (h : matchAt? p 0 e s = some t) (hs : s.Closed) (he : e.stripMData = .bvar i) :
    ∃ v, some v ∈ t ∧ v.skeleton = .bvar i := by
  rw [matchAt?_eq_some_iff] at h
  induction p with
  | mdata m p ih =>
    cases h with
    | mdata h => exact ih h
  | bvar k =>
    cases h with
    | value _ hloose hbind =>
      rw [he] at hloose hbind
      obtain ⟨-, -, -, v, hv, hve⟩ := Substitution.bind?_spec hbind hs hloose
      exact ⟨v, List.mem_of_getElem? hv, hve⟩
    | bound hlt => exact absurd hlt (by simp)
  | _ =>
    cases h
    simp_all

namespace Rule

variable {r : Rule} {e : Expr} {vals : List Expr}

theorem closed_unbound (r : Rule) : Substitution.Closed (r.varTypes.map fun _ => none) := by
  intro v hv
  simp at hv

/-- The values of a match of a rule: there is one for each variable, no
variable is loose in one, and with them the pattern is the matched term. -/
theorem match?_spec (h : r.match? e = some (vals.map some)) :
    vals.length = r.varTypes.length ∧ (∀ v ∈ vals, v.hasLooseBVars = false) ∧
      (r.pattern.instantiateRev vals).canonical = e.canonical := by
  obtain ⟨hle, hclosed, hp⟩ := matchAt?_spec h r.closed_unbound
  refine ⟨by simpa using hle.length_eq.symm, fun v hv => ?_, hp vals (.refl _)⟩
  exact hclosed v (List.mem_map.mpr ⟨v, hv, rfl⟩)

end Rule

end Pinpoint
