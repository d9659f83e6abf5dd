/-
Instances of patterns.

A pattern with values in the place of its variables is matched by these values,
as far as it mentions its variables.  So, where both sides of a rule mention all
of them, the values with which the one side matches are those with which the
other side matches its own instance.

* `Expr.Mentions` — the variables of binders around a term that occur in it;
* `matchAt?_revVar` — matching finds no other values than those put in, and finds
  one for each variable that is mentioned;
* `Rule.match?_instantiateRev` — the same for a rule all of whose variables are
  mentioned.
-/
import Pinpoint.Proofs.Scoping
import Pinpoint.Proofs.Selection
import Pinpoint.Proofs.Steps

namespace Pinpoint

namespace Expr

/-- Whether the variable of a binder around the term occurs in it; `n` counts the
binders between.  Like `Scoped` it counts them without a bound. -/
def Mentions : Nat → Expr → Prop
  | n, .bvar i => i.toNat = n
  | n, .app f a => Mentions n f ∨ Mentions n a
  | n, .lam _ t b => Mentions n t ∨ Mentions (n + 1) b
  | n, .pi _ t b => Mentions n t ∨ Mentions (n + 1) b
  | n, .letE t v b => Mentions n t ∨ Mentions n v ∨ Mentions (n + 1) b
  | n, .mdata _ e => Mentions n e
  | _, _ => False

instance Mentions.decidable : ∀ (n : Nat) (e : Expr), Decidable (e.Mentions n)
  | n, .bvar i => inferInstanceAs (Decidable (i.toNat = n))
  | n, .app f a => @instDecidableOr _ _ (decidable n f) (decidable n a)
  | n, .lam _ t b => @instDecidableOr _ _ (decidable n t) (decidable (n + 1) b)
  | n, .pi _ t b => @instDecidableOr _ _ (decidable n t) (decidable (n + 1) b)
  | n, .letE t v b =>
    @instDecidableOr _ _ (decidable n t)
      (@instDecidableOr _ _ (decidable n v) (decidable (n + 1) b))
  | n, .mdata _ e => decidable n e
  | _, .fvar _ => .isFalse id
  | _, .sort _ => .isFalse id
  | _, .const _ _ => .isFalse id
  | _, .lit _ => .isFalse id

/-- A traversal leaves all binders where they are. -/
theorem nesting_le_mapVars (f : UInt32 → UInt32 → Expr) (g : UInt32 → FVarId → Expr) (d : UInt32)
    (e : Expr) : e.nesting ≤ (mapVars f g d e).nesting := by
  induction e generalizing d with
  | app _ _ ihf iha =>
    have := ihf d
    have := iha d
    simp only [mapVars, nesting]
    omega
  | lam _ _ _ iht ihb | pi _ _ _ iht ihb =>
    have := iht d
    have := ihb (d + 1)
    simp only [mapVars, nesting]
    omega
  | letE _ _ _ iht ihv ihb =>
    have := iht d
    have := ihv d
    have := ihb (d + 1)
    simp only [mapVars, nesting]
    omega
  | mdata _ _ ih => exact ih d
  | _ => exact Nat.zero_le _

/-- A traversal adds at most the nesting of what it puts at the variables. -/
theorem nesting_mapVars_le {f : UInt32 → UInt32 → Expr} {n : Nat} (hf : ∀ d i, (f d i).nesting ≤ n)
    (d : UInt32) (e : Expr) :
    (mapVars f (fun _ x => .fvar x) d e).nesting ≤ e.nesting + n := by
  induction e generalizing d with
  | bvar i => exact Nat.le_trans (hf d i) (Nat.le_add_left n _)
  | app _ _ ihf iha =>
    have := ihf d
    have := iha d
    simp only [mapVars, nesting]
    omega
  | lam _ _ _ iht ihb | pi _ _ _ iht ihb =>
    have := iht d
    have := ihb (d + 1)
    simp only [mapVars, nesting]
    omega
  | letE _ _ _ iht ihv ihb =>
    have := iht d
    have := ihv d
    have := ihb (d + 1)
    simp only [mapVars, nesting]
    omega
  | mdata _ _ ih => exact ih d
  | _ => exact Nat.zero_le _

theorem nesting_lift_le (e : Expr) (amount : UInt32) : (e.lift amount).nesting ≤ e.nesting := by
  refine nesting_mapVars_le (n := 0) (fun d i => ?_) 0 e
  split <;> exact Nat.le_refl 0

theorem nesting_instantiateRev_le {vals : List Expr} {n : Nat} (hvals : ∀ v ∈ vals, v.nesting ≤ n)
    (e : Expr) : (e.instantiateRev vals).nesting ≤ e.nesting + n := by
  refine nesting_mapVars_le (fun d i => ?_) 0 e
  split
  · exact Nat.zero_le n
  · split
    · rename_i v hget
      exact Nat.le_trans (v.nesting_lift_le d)
        (hvals v (List.mem_reverse.mp (List.mem_of_getElem? hget)))
    · exact Nat.zero_le n

theorem nesting_child?_le {e c : Expr} {s : Step} (hc : e.child? s = some c) :
    c.nesting ≤ e.nesting := by
  induction e with
  | mdata _ _ ih => exact ih hc
  | app f a =>
    rw [nesting]
    cases s <;> simp only [child?, reduceCtorEq, Option.some.injEq] at hc <;> subst hc <;> omega
  | lam i t b | pi i t b =>
    rw [nesting]
    cases s <;> simp only [child?, reduceCtorEq, Option.some.injEq] at hc <;> subst hc <;> omega
  | letE t v b =>
    rw [nesting]
    cases s <;> simp only [child?, reduceCtorEq, Option.some.injEq] at hc <;> subst hc <;> omega
  | _ => simp only [child?, reduceCtorEq] at hc

theorem nesting_subterm?_le {e s : Expr} {π : Path} (h : e.subterm? π = some s) :
    s.nesting ≤ e.nesting := by
  induction π generalizing e with
  | nil =>
    rw [subterm?_nil] at h
    rw [← Option.some.inj h]
    exact Nat.le_of_eq e.nesting_stripMData
  | cons step π ih =>
    rw [subterm?_cons] at h
    obtain ⟨c, hc, h⟩ := Option.bind_eq_some_iff.mp h
    exact Nat.le_trans (ih h) (nesting_child?_le hc)

/-- The sides of a statement nest no deeper than the statement. -/
theorem nesting_statement?_le {e : Expr} {s : Statement} (hs : e.statement? = some s) (side : Side) :
    (s.side side).nesting ≤ e.nesting := by
  rw [← nesting_stripMData e]
  rcases statement?_eq_some hs with ⟨hr, h⟩ | ⟨-, -, -, ls, h⟩ <;> rw [h]
  · rw [Statement.toExpr, Statement.rebuild, hr]
    cases side <;>
      · simp only [Statement.side, mkEq, mkApp_cons, mkApp_nil, nesting]
        omega
  · cases side <;>
      · simp only [Statement.side, mkApp_cons, mkApp_nil, nesting]
        omega

end Expr

/-- What is searched nests no deeper than the statement. -/
theorem Scope.nesting_host_le {target : Expr} {side? : Option Side} {scope : Scope}
    (h : select target side? = .ok scope) : scope.host.nesting ≤ target.nesting := by
  cases side? with
  | none =>
    obtain rfl : scope = whole target := select_eq_ok h
    exact Nat.le_refl _
  | some side =>
    obtain ⟨s, hs, rfl⟩ := select_eq_ok h
    have hside := Expr.nesting_statement?_le hs side
    cases side <;> exact hside

/-! ### The instance of a pattern -/

namespace Substitution

/-- Whether variable `k`, counted from the innermost one, has a value. -/
def Binds (s : Substitution) (k : Nat) : Prop := ∃ v, s[s.length - 1 - k]? = some (some v)

theorem Le.binds {s t : Substitution} {k : Nat} (h : s.Le t) (hs : s.Binds k) : t.Binds k := by
  obtain ⟨v, hv⟩ := hs
  exact ⟨v, h.length_eq ▸ h.value hv⟩

/-- A variable can be given the value that it has in an extension. -/
theorem bind?_of_le {s : Substitution} {vals : List Expr} {k : Nat} {v : Expr}
    (hs : s.Le (vals.map some)) (hv : vals.reverse[k]? = some v) :
    ∃ t, s.bind? k v = some t ∧ s.Le t ∧ t.Le (vals.map some) ∧ t.Binds k := by
  have hlen : s.length = vals.length := by simpa using hs.length_eq
  have hk : k < vals.length := by simpa using (List.getElem?_eq_some_iff.mp hv).1
  have hslot : (vals.map some)[s.length - 1 - k]? = some (some v) := by
    rw [List.getElem?_reverse hk, ← hlen] at hv
    rw [List.getElem?_map, hv]
    rfl
  obtain ⟨slot, hold⟩ : ∃ slot, s[s.length - 1 - k]? = some slot :=
    ⟨_, List.getElem?_eq_getElem (by omega)⟩
  cases slot with
  | some old =>
    obtain rfl : old = v := by simpa [hslot] using (hs.value hold).symm
    exact ⟨s, bind?_eq_some_iff.mpr ⟨hlen ▸ hk, .inl ⟨old, hold, rfl, rfl⟩⟩, .refl s, hs, old, hold⟩
  | none =>
    refine ⟨_, bind?_eq_some_iff.mpr ⟨hlen ▸ hk, .inr ⟨hold, rfl⟩⟩,
      ⟨by simp, fun {j w} hw => ?_⟩, ⟨by simp [hlen], fun {j w} hw => ?_⟩, v, ?_⟩
    · rw [List.getElem?_set_ne]
      · exact hw
      · rintro rfl
        cases hold.symm.trans hw
    · rcases Decidable.em (s.length - 1 - k = j) with rfl | hj
      · rw [List.getElem?_set_self (by omega)] at hw
        rw [hslot, hw]
      · rw [List.getElem?_set_ne hj] at hw
        exact hs.value hw
    · rw [List.length_set, List.getElem?_set_self (by omega)]

end Substitution

/-- Metadata around a term does not change how it is matched. -/
theorem matchAt?_mdata (p : Expr) (d : UInt32) (m : List (Name × MDataValue)) (e : Expr)
    (s : Substitution) : matchAt? p d (.mdata m e) s = matchAt? p d e s := by
  induction p with
  | mdata _ _ ih => simpa only [matchAt?] using ih
  | _ => rfl

theorem matchAt?_stripMData (p : Expr) (d : UInt32) (e : Expr) (s : Substitution) :
    matchAt? p d e.stripMData s = matchAt? p d e s := by
  induction e with
  | mdata m e ih => rw [matchAt?_mdata, ← ih, Expr.stripMData]
  | _ => rfl

open Pinpoint.Expr in
/-- A variable of the telescope takes its value, and one of a binder no value. -/
theorem matches_bvar_revVar {vals : List Expr} (hclosed : ∀ v ∈ vals, v.hasLooseBVars = false)
    (hbare : ∀ v ∈ vals, v.stripMData = v) {i d : UInt32} {s : Substitution}
    (hi : i.toNat < vals.length + d.toNat) (hs : s.Le (vals.map some)) :
    ∃ t, Matches (.bvar i) d (revVar vals d i) s t ∧ s.Le t ∧ t.Le (vals.map some) ∧
      ∀ k, i.toNat = k + d.toNat → t.Binds k := by
  by_cases hdi : d ≤ i
  · have hsub : (i - d).toNat = i.toNat - d.toNat := UInt32.toNat_sub_of_le _ _ hdi
    obtain ⟨v, hmem, hv⟩ := exists_value hdi hi
    obtain ⟨t, ht, hst, ht', hbinds⟩ := Substitution.bind?_of_le hs hv
    refine ⟨t, ?_, hst, ht', fun k hk => ?_⟩
    · rw [revVar_of_value hdi hv, lift_eq_self (hclosed _ hmem)]
      exact .value hdi (by rw [hbare _ hmem]; exact hclosed _ hmem) (by rwa [hbare _ hmem])
    · obtain rfl : (i - d).toNat = k := by omega
      exact hbinds
  · have hid : i < d := by simpa using hdi
    refine ⟨s, ?_, .refl s, hs, fun k hk => ?_⟩
    · rw [revVar_of_lt hid]
      exact .bound hid rfl
    · rw [UInt32.le_iff_toNat_le] at hdi
      omega

open Pinpoint.Expr in
/-- A pattern with values in the place of its variables is matched by these
values, as far as it mentions the variables. -/
theorem matchAt?_revVar {vals : List Expr} (hclosed : ∀ v ∈ vals, v.hasLooseBVars = false)
    (hbare : ∀ v ∈ vals, v.stripMData = v) {p : Expr} {d : UInt32} {s : Substitution}
    (hp : p.Scoped (vals.length + d.toNat)) (hd : d.toNat + p.nesting < 2 ^ 32)
    (hs : s.Le (vals.map some)) :
    ∃ t, matchAt? p d (mapVars (revVar vals) (fun _ x => .fvar x) d p) s = some t ∧
      s.Le t ∧ t.Le (vals.map some) ∧ ∀ k, p.Mentions (k + d.toNat) → t.Binds k := by
  simp only [matchAt?_eq_some_iff]
  -- The parts are matched one after the other: what one of them binds, the ones after
  -- it keep, so a variable is bound if any part mentions it.
  induction p generalizing d s with
  | bvar i => exact matches_bvar_revVar hclosed hbare hp hs
  | app pf pa ihf iha =>
    simp only [nesting] at hd
    obtain ⟨u, hu, hle, hu', hf⟩ := ihf hp.1 (by omega) hs
    obtain ⟨t, ht, hle', ht', ha⟩ := iha hp.2 (by omega) hu'
    exact ⟨t, .app rfl hu ht, hle.trans hle', ht',
      fun k hk => hk.elim (fun hk => hle'.binds (hf k hk)) (ha k)⟩
  | lam i pt pb iht ihb =>
    simp only [nesting] at hd
    have hd1 := toNat_index_succ (d := d) (by omega)
    obtain ⟨u, hu, hle, hu', hf⟩ := iht hp.1 (by omega) hs
    obtain ⟨t, ht, hle', ht', ha⟩ := ihb (d := d + 1) (hd1 ▸ hp.2) (by omega) hu'
    rw [hd1] at ha
    exact ⟨t, .lam rfl hu ht, hle.trans hle', ht',
      fun k hk => hk.elim (fun hk => hle'.binds (hf k hk)) (ha k)⟩
  | pi i pt pb iht ihb =>
    simp only [nesting] at hd
    have hd1 := toNat_index_succ (d := d) (by omega)
    obtain ⟨u, hu, hle, hu', hf⟩ := iht hp.1 (by omega) hs
    obtain ⟨t, ht, hle', ht', ha⟩ := ihb (d := d + 1) (hd1 ▸ hp.2) (by omega) hu'
    rw [hd1] at ha
    exact ⟨t, .pi rfl hu ht, hle.trans hle', ht',
      fun k hk => hk.elim (fun hk => hle'.binds (hf k hk)) (ha k)⟩
  | letE pt pv pb iht ihv ihb =>
    simp only [nesting] at hd
    have hd1 := toNat_index_succ (d := d) (by omega)
    obtain ⟨u, hu, hle, hu', ht⟩ := iht hp.1 (by omega) hs
    obtain ⟨w, hw, hle', hw', hv⟩ := ihv hp.2.1 (by omega) hu'
    obtain ⟨t, hb, hle'', ht', hbinds⟩ := ihb (d := d + 1) (hd1 ▸ hp.2.2) (by omega) hw'
    rw [hd1] at hbinds
    refine ⟨t, .letE rfl hu hw hb, (hle.trans hle').trans hle'', ht', ?_⟩
    rintro k (hk | hk | hk)
    · exact (hle'.trans hle'').binds (ht k hk)
    · exact hle''.binds (hv k hk)
    · exact hbinds k hk
  | mdata m p ih =>
    obtain ⟨t, ht, hrest⟩ := ih hp hd hs
    refine ⟨t, .mdata ?_, hrest⟩
    rw [mapVars, ← matchAt?_eq_some_iff, matchAt?_mdata]
    exact ht.matchAt?_eq_some
  | sort l => exact ⟨s, .sort rfl rfl, .refl s, hs, fun _ => False.elim⟩
  | const n ls => exact ⟨s, .const rfl rfl, .refl s, hs, fun _ => False.elim⟩
  | fvar x => exact ⟨s, .fvar rfl, .refl s, hs, fun _ => False.elim⟩
  | lit l => exact ⟨s, .lit rfl, .refl s, hs, fun _ => False.elim⟩

/-- What a rule's pattern becomes with values for its variables is matched by
these values, if the pattern mentions all variables. -/
theorem Rule.match?_instantiateRev {r : Rule} {vals : List Expr}
    (hlen : vals.length = r.varTypes.length) (hclosed : ∀ v ∈ vals, v.hasLooseBVars = false)
    (hbare : ∀ v ∈ vals, v.stripMData = v) (hp : r.pattern.Scoped r.varTypes.length)
    (hnesting : (r.pattern.instantiateRev vals).nesting < 2 ^ 32)
    (hall : ∀ k < r.varTypes.length, r.pattern.Mentions k) :
    r.match? (r.pattern.instantiateRev vals) = some (vals.map some) := by
  have hunbound : Substitution.Le (r.varTypes.map fun _ => none) (vals.map some) := by
    refine ⟨by simp [hlen], fun hv => ?_⟩
    rw [List.getElem?_map] at hv
    obtain ⟨-, -, hnone⟩ := Option.map_eq_some_iff.mp hv
    cases hnone
  have hd : (0 : UInt32).toNat + r.pattern.nesting < 2 ^ 32 := by
    have := r.pattern.nesting_le_mapVars (Expr.revVar vals) (fun _ x => .fvar x) 0
    rw [Expr.instantiateRev_eq_mapVars] at hnesting
    simpa using Nat.lt_of_le_of_lt this hnesting
  obtain ⟨t, ht, -, hle, hbinds⟩ := matchAt?_revVar hclosed hbare (by simpa [hlen] using hp) hd hunbound
  obtain rfl : t = vals.map some := by
    have htlen : t.length = vals.length := by simpa using hle.length_eq
    refine List.ext_getElem? fun j => ?_
    rcases Nat.lt_or_ge j vals.length with hj | hj
    · have hk : t.length - 1 - j < r.varTypes.length := by omega
      obtain ⟨v, hv⟩ := hbinds (t.length - 1 - j) (hall _ hk)
      rw [show t.length - 1 - (t.length - 1 - j) = j by omega] at hv
      rw [hv, hle.value hv]
    · rw [List.getElem?_eq_none (by omega), List.getElem?_eq_none (by simpa using hj)]
  exact ht

end Pinpoint
