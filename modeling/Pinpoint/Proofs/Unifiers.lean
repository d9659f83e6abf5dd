/-
First-order matching is sound, complete and most general.

A pattern binds exactly the variables that it mentions, and a term is matched
exactly if it is the pattern with some closed values in the place of its
variables, up to metadata.  The values that matching finds are then the only
ones, again up to metadata.

* `matchAt?_binds_iff` — a match adds values for the variables of the pattern
  and for no others;
* `Substitution.Fits` — substitutions whose values are those of a list, up to
  metadata;
* `matchAt?_complete` — a term that is an instance of the pattern is matched,
  with the values of the instance;
* `Rule.matching_sound_and_complete` — the same of a rule and its variables.
-/
import Pinpoint.Proofs.Cleaning
import Pinpoint.Proofs.Instances

namespace Pinpoint

/-! ### The variables with a value -/

namespace Substitution

variable {s t u : Substitution} {k : Nat} {e : Expr}

/-- Giving a variable a value gives none to another. -/
theorem bind?_binds_iff (h : s.bind? k e = some t) :
    t.length = s.length ∧ ∀ j < s.length, t.Binds j ↔ s.Binds j ∨ j = k := by
  obtain ⟨hk, ⟨old, hold, -, rfl⟩ | ⟨-, rfl⟩⟩ := bind?_eq_some_iff.mp h
  · refine ⟨rfl, fun j _ => ⟨.inl, ?_⟩⟩
    rintro (hj | rfl)
    · exact hj
    · exact ⟨old, hold⟩
  · refine ⟨by simp, fun j hj => ?_⟩
    unfold Binds
    rw [List.length_set]
    rcases Decidable.em (j = k) with rfl | hjk
    · rw [List.getElem?_set_self (by omega)]
      exact iff_of_true ⟨e, rfl⟩ (.inr rfl)
    · rw [List.getElem?_set_ne (by omega), or_iff_left hjk]

/-- Whether `t` came from `s` by giving values to the variables that are asked
for, and to no others. -/
def Extends (s t : Substitution) (p : Nat → Prop) : Prop :=
  t.length = s.length ∧ ∀ k < s.length, t.Binds k ↔ s.Binds k ∨ p k

theorem Extends.none : s.Extends s fun _ => False :=
  ⟨rfl, fun _ _ => (or_iff_left id).symm⟩

theorem Extends.trans {p q : Nat → Prop} (h : s.Extends t p) (h' : t.Extends u q) :
    s.Extends u fun k => p k ∨ q k := by
  refine ⟨h'.1.trans h.1, fun k hk => ?_⟩
  rw [h'.2 k (h.1 ▸ hk), h.2 k hk, or_assoc]

end Substitution

open Pinpoint.Expr in
/-- A match gives values to the variables that the pattern mentions, and to no
others. -/
theorem matchAt?_binds_iff {p : Expr} {d : UInt32} {e : Expr} {s t : Substitution}
    (h : matchAt? p d e s = some t) (hd : d.toNat + p.nesting < 2 ^ 32) :
    s.Extends t fun k => p.Mentions (k + d.toNat) := by
  rw [matchAt?_eq_some_iff] at h
  induction h with
  | mdata _ ih => exact ih hd
  | @value i d e s t hdi _ hbind =>
    -- A variable of the pattern is found by its distance from the binders around it.
    have hsub : (i - d).toNat = i.toNat - d.toNat := UInt32.toNat_sub_of_le _ _ hdi
    rw [UInt32.le_iff_toNat_le] at hdi
    obtain ⟨hlen, hbinds⟩ := Substitution.bind?_binds_iff hbind
    refine ⟨hlen, fun k hk => (hbinds k hk).trans (or_congr_right ?_)⟩
    show k = (i - d).toNat ↔ i.toNat = k + d.toNat
    omega
  | @bound i d e s hid he =>
    -- A variable that is bound inside the pattern is not among those that get values.
    rw [UInt32.lt_iff_toNat_lt] at hid
    refine ⟨rfl, fun k _ => (or_iff_left ?_).symm⟩
    show ¬ i.toNat = k + d.toNat
    omega
  | app _ _ _ ihf iha =>
    simp only [nesting] at hd
    exact (ihf (by omega)).trans (iha (by omega))
  | @lam i j pt pb d _ _ _ _ _ _ _ _ _ iht ihb | @pi i j pt pb d _ _ _ _ _ _ _ _ _ iht ihb =>
    simp only [nesting] at hd
    have hsucc := toNat_index_succ (d := d) (by omega)
    have hbody := ihb (by omega)
    rw [hsucc] at hbody
    exact (iht (by omega)).trans hbody
  | @letE pt pv pb d _ _ _ _ _ _ _ _ _ _ _ _ iht ihv ihb =>
    simp only [nesting] at hd
    have hsucc := toNat_index_succ (d := d) (by omega)
    have hbody := ihb (by omega)
    rw [hsucc] at hbody
    exact (iht (by omega)).trans ((ihv (by omega)).trans hbody)
  | _ => exact .none

/-! ### Instances are matched -/

namespace Substitution

variable {s : Substitution} {vals : List Expr}

/-- Whether every value is the one that `vals` has at its place, up to metadata. -/
structure Fits (s : Substitution) (vals : List Expr) : Prop where
  length_eq : s.length = vals.length
  value : ∀ {k : Nat} {v : Expr}, s[k]? = some (some v) →
    ∃ w, vals[k]? = some w ∧ v.skeleton = w.skeleton

/-- A variable can be given the value that `vals` has at its place, also if it
has it already. -/
theorem Fits.bind? (hs : s.Fits vals) {k : Nat} {v w : Expr} (hw : vals.reverse[k]? = some w)
    (hv : v.skeleton = w.skeleton) : ∃ t, s.bind? k v = some t ∧ t.Fits vals := by
  have hlen := hs.length_eq
  have hk : k < vals.length := by simpa using (List.getElem?_eq_some_iff.mp hw).1
  rw [List.getElem?_reverse hk, ← hlen] at hw
  obtain ⟨slot, hslot⟩ : ∃ slot, s[s.length - 1 - k]? = some slot :=
    ⟨_, List.getElem?_eq_getElem (by omega)⟩
  cases slot with
  | some old =>
    obtain ⟨w', hw', hold⟩ := hs.value hslot
    obtain rfl : w' = w := Option.some.inj (hw'.symm.trans hw)
    exact ⟨s, bind?_eq_some_iff.mpr ⟨hlen ▸ hk, .inl ⟨old, hslot, hold.trans hv.symm, rfl⟩⟩, hs⟩
  | none =>
    refine ⟨_, bind?_eq_some_iff.mpr ⟨hlen ▸ hk, .inr ⟨hslot, rfl⟩⟩, by simpa using hlen,
      fun {j v'} hj => ?_⟩
    rcases Decidable.em (s.length - 1 - k = j) with rfl | hne
    · rw [List.getElem?_set_self (by omega)] at hj
      obtain rfl : v = v' := Option.some.inj (Option.some.inj hj)
      exact ⟨w, hw, hv⟩
    · rw [List.getElem?_set_ne hne] at hj
      exact hs.value hj

theorem fits_unbound {α : Type} {l : List α} (h : vals.length = l.length) :
    Fits (l.map fun _ => none) vals := by
  refine ⟨by simp [h], fun hv => ?_⟩
  rw [List.getElem?_map] at hv
  obtain ⟨-, -, hnone⟩ := Option.map_eq_some_iff.mp hv
  cases hnone

end Substitution

open Pinpoint.Expr Cleaning in
/-- What is the pattern with closed values in the place of its variables, up to
metadata, is matched, and matching finds no other values. -/
theorem matchAt?_complete {vals : List Expr} (hclosed : ∀ v ∈ vals, v.hasLooseBVars = false)
    {p : Expr} {d : UInt32} {e : Expr} {s : Substitution}
    (hp : p.Scoped (vals.length + d.toNat)) (hd : d.toNat + p.nesting < 2 ^ 32)
    (he : toSkeleton.clean (mapVars (revVar vals) (fun _ x => .fvar x) d p) = toSkeleton.clean e)
    (hs : s.Fits vals) : ∃ t, matchAt? p d e s = some t ∧ t.Fits vals := by
  simp only [matchAt?_eq_some_iff]
  -- The term has the form of the pattern up to metadata, and each part of it is an
  -- instance of a part of the pattern by the same values.
  induction p generalizing d e s with
  | mdata m p ih =>
    obtain ⟨t, ht, hfits⟩ := ih hp hd he hs
    exact ⟨t, .mdata ht, hfits⟩
  | bvar i =>
    have hi : i.toNat < vals.length + d.toNat := hp
    by_cases hdi : d ≤ i
    · obtain ⟨w, hmem, hw⟩ := exists_value hdi hi
      have hwclosed := hclosed w hmem
      have hskeleton : e.stripMData.skeleton = w.skeleton := by
        rw [mapVars, revVar_of_value hdi hw, lift_eq_self hwclosed, toSkeleton_clean,
          toSkeleton_clean] at he
        rw [skeleton_stripMData, he]
      have heclosed : e.stripMData.hasLooseBVars = false := by
        rw [hasLooseBVars_of_canonical_eq (canonical_eq_of_skeleton_eq hskeleton), hwclosed]
      obtain ⟨t, ht, hfits⟩ := hs.bind? hw hskeleton
      exact ⟨t, .value hdi heclosed ht, hfits⟩
    · have hid : i < d := by simpa using hdi
      rw [mapVars, revVar_of_lt hid] at he
      exact ⟨s, .bound hid (of_leaf he trivial), hs⟩
  | app pf pa ihf iha =>
    simp only [nesting] at hd
    obtain ⟨f, a, hstrip, hf, ha⟩ := of_app he
    obtain ⟨u, hu, hfits⟩ := ihf hp.1 (by omega) hf hs
    obtain ⟨t, ht, hfits⟩ := iha hp.2 (by omega) ha hfits
    exact ⟨t, .app hstrip hu ht, hfits⟩
  | lam i pt pb iht ihb =>
    simp only [nesting] at hd
    have hsucc := toNat_index_succ (d := d) (by omega)
    obtain ⟨j, a, b, hstrip, -, ha, hb⟩ := of_lam he
    obtain ⟨u, hu, hfits⟩ := iht hp.1 (by omega) ha hs
    obtain ⟨t, ht, hfits⟩ := ihb (d := d + 1) (hsucc ▸ hp.2) (by omega) hb hfits
    exact ⟨t, .lam hstrip hu ht, hfits⟩
  | pi i pt pb iht ihb =>
    simp only [nesting] at hd
    have hsucc := toNat_index_succ (d := d) (by omega)
    obtain ⟨j, a, b, hstrip, -, ha, hb⟩ := of_pi he
    obtain ⟨u, hu, hfits⟩ := iht hp.1 (by omega) ha hs
    obtain ⟨t, ht, hfits⟩ := ihb (d := d + 1) (hsucc ▸ hp.2) (by omega) hb hfits
    exact ⟨t, .pi hstrip hu ht, hfits⟩
  | letE pt pv pb iht ihv ihb =>
    simp only [nesting] at hd
    have hsucc := toNat_index_succ (d := d) (by omega)
    obtain ⟨a, v, b, hstrip, ha, hv, hb⟩ := of_letE he
    obtain ⟨u, hu, hfits⟩ := iht hp.1 (by omega) ha hs
    obtain ⟨w, hw, hfits⟩ := ihv hp.2.1 (by omega) hv hfits
    obtain ⟨t, ht, hfits⟩ := ihb (d := d + 1) (hsucc ▸ hp.2.2) (by omega) hb hfits
    exact ⟨t, .letE hstrip hu hw ht, hfits⟩
  | sort l =>
    obtain ⟨l', hstrip, hl⟩ := of_sort he
    exact ⟨s, .sort hstrip hl, hs⟩
  | const n ls => exact ⟨s, .const (of_leaf he trivial) rfl, hs⟩
  | fvar x => exact ⟨s, .fvar (of_leaf he trivial), hs⟩
  | lit l => exact ⟨s, .lit (of_leaf he trivial), hs⟩

/-! ### Rules -/

namespace Rule

variable {r : Rule} {e : Expr} {s : Substitution} {vals : List Expr}

/-- What a substitution has to be to make a rule's pattern the given term: the
variables that the pattern mentions have values, and no others; no bound variable
is loose in a value; and the pattern with these values, whatever the other
variables are given, is the term up to metadata, binder annotations and the
simplification of universes.  The outermost variable comes first, so slot `i` is
that of variable `numVars - 1 - i`. -/
structure Solves (r : Rule) (e : Expr) (s : Substitution) : Prop where
  length_eq : s.length = r.numVars
  bound_iff : ∀ i < r.numVars,
    (∃ v, s[i]? = some (some v)) ↔ r.pattern.Mentions (r.numVars - 1 - i)
  closed : ∀ v, some v ∈ s → v.hasLooseBVars = false
  instance_eq : ∀ vals, s.Le (vals.map some) →
    (r.pattern.instantiateRev vals).canonical = e.canonical

theorem binds_unbound (r : Rule) (k : Nat) :
    ¬ Substitution.Binds (r.varTypes.map fun _ => none) k := by
  rintro ⟨v, hv⟩
  rw [List.getElem?_map] at hv
  obtain ⟨-, -, hnone⟩ := Option.map_eq_some_iff.mp hv
  cases hnone

theorem solves_of_match? (hnesting : r.pattern.nesting < 2 ^ 32) (h : r.match? e = some s) :
    r.Solves e s := by
  obtain ⟨hle, hclosed, hinstance⟩ := matchAt?_spec h r.closed_unbound
  obtain ⟨hlen, hbinds⟩ := matchAt?_binds_iff h (by simpa using hnesting)
  rw [List.length_map] at hlen hbinds
  refine ⟨hlen, fun i hi => ?_, hclosed, hinstance⟩
  have hslot : s.length - 1 - (r.numVars - 1 - i) = i := by
    rw [hlen]
    show r.numVars - 1 - (r.numVars - 1 - i) = i
    omega
  have hi : r.numVars - 1 - i < r.varTypes.length := by
    show r.numVars - 1 - i < r.numVars
    omega
  have hbinds := hbinds _ hi
  rwa [Substitution.Binds, hslot, or_iff_right (r.binds_unbound _)] at hbinds

/-- First-order matching is sound and complete, and finds the most general
values: what it finds solves the pattern for the term, and if the term is the
pattern with some closed values, up to metadata, it finds just these, up to
metadata, for all variables that the pattern mentions. -/
theorem matching_sound_and_complete (hscoped : r.pattern.Scoped r.numVars)
    (hnesting : r.pattern.nesting < 2 ^ 32) :
    (∀ s, r.match? e = some s → r.Solves e s) ∧
      ∀ vals : List Expr, vals.length = r.numVars → (∀ v ∈ vals, v.hasLooseBVars = false) →
        (r.pattern.instantiateRev vals).eqModMData e = true →
          ∃ s, r.match? e = some s ∧ ∀ i < r.numVars, r.pattern.Mentions (r.numVars - 1 - i) →
            ∃ v w, s[i]? = some (some v) ∧ vals[i]? = some w ∧ v.eqModMData w = true := by
  refine ⟨fun s => solves_of_match? hnesting, fun vals hlen hclosed he => ?_⟩
  rw [Expr.eqModMData_iff, ← Cleaning.toSkeleton_clean, ← Cleaning.toSkeleton_clean] at he
  obtain ⟨s, hs, hfits⟩ := matchAt?_complete (d := 0) hclosed
    (by simpa [hlen] using hscoped) (by simpa using hnesting) he
    (Substitution.fits_unbound (l := r.varTypes) hlen)
  refine ⟨s, hs, fun i hi hmentions => ?_⟩
  obtain ⟨v, hv⟩ := ((solves_of_match? hnesting hs).bound_iff i hi).mpr hmentions
  obtain ⟨w, hw, hvw⟩ := hfits.value hv
  exact ⟨v, w, hv, hw, (Expr.eqModMData_iff v w).mpr hvw⟩

end Rule

namespace Repeated

/-- The natural numbers. -/
def nat : Expr := .const Vocabulary.nat []

/-- A function of two numbers. -/
def f (a b : Expr) : Expr := .app (.app (.const (.simple "f") []) a) b

/-- The rule `∀ a b, f a a = b`, whose left side mentions one variable only. -/
def rule : Rule :=
  let statement : Statement := ⟨.eq, .one, nat, f (.bvar 1) (.bvar 1), .bvar 0⟩
  ⟨.const (.simple "h") [], [nat, nat], statement, false, "h"⟩

/-- An instance of the left side with metadata in one of the two places. -/
def term : Expr := f (.mdata [] (.lit (.nat 3))) (.lit (.nat 3))

end Repeated

open Repeated in
/-- The values of a variable that occurs twice are compared up to metadata, and
the variable that does not occur has no value. -/
theorem matching_repeated_variable :
    ∃ s, rule.match? term = some s ∧ rule.Solves term s ∧
      ∃ v, s[0]? = some (some v) ∧ v.eqModMData (.lit (.nat 3)) = true := by
  have h := Rule.matching_sound_and_complete (r := rule) (e := term) (by decide) (by decide)
  obtain ⟨s, hs, hvalues⟩ := h.2 [.lit (.nat 3), .lit (.nat 4)] rfl (by decide) (by decide)
  obtain ⟨v, w, hv, hw, hvw⟩ := hvalues 0 (by decide) (by decide)
  obtain rfl : Expr.lit (.nat 3) = w := Option.some.inj hw
  exact ⟨s, hs, h.1 s hs, v, hv, hvw⟩

end Pinpoint
