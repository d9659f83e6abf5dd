/-
Variables that are replaced one at a time.

`instantiateRev` replaces the variables of several binders at once.  The same is
done by one instantiation for each of them, from the innermost binder outwards, if
each value is raised past the binders that are still there; values without loose
variables can be put in from the outermost binder inwards, as they stand.

* `lift_lift`, `mapVars_inst_lift` — what raises a value, and what lowers it again
  once it is in its place;
* `instantiate_instantiateRev` — the outermost variable after the others;
* `foldr_instantiate_eq_instantiateRev` — all variables, the innermost one first;
* `instantiate_mapVars_revVar` — the innermost variable after the others.
-/
import Pinpoint.Proofs.LooseVariables
import Pinpoint.Proofs.Positions

namespace Pinpoint.Expr

variable {e u v w : Expr} {vals : List Expr} {a b d k n : Nat} {i : UInt32}

/-! ### Values that are raised -/

/-- What `lift` puts in the place of a bound variable. -/
def liftVar (amount d i : UInt32) : Expr :=
  if d ≤ i ∧ i < maxIndex then .bvar (i + amount) else .bvar i

theorem lift_eq_mapVars (amount : UInt32) (e : Expr) :
    e.lift amount = mapVars (liftVar amount) (fun _ x => .fvar x) 0 e := rfl

/-- Whether no loose variable wraps when it is raised by `n`. -/
def RaisableBy (n : Nat) (e : Expr) : Prop :=
  ∀ p ∈ e.bvars 0, p.1 ≤ p.2.toNat → p.2.toNat + n < 2 ^ 32

instance (n : Nat) (e : Expr) : Decidable (e.RaisableBy n) :=
  inferInstanceAs (Decidable (∀ p ∈ e.bvars 0, p.1 ≤ p.2.toNat → p.2.toNat + n < 2 ^ 32))

theorem RaisableBy.mono {m : Nat} (h : u.RaisableBy n) (hmn : m ≤ n) : u.RaisableBy m :=
  fun p hp hloose => Nat.lt_of_le_of_lt (Nat.add_le_add_left hmn _) (h p hp hloose)

theorem toNat_add_ofNat (h : i.toNat + n < 2 ^ 32) :
    (i + UInt32.ofNat n).toNat = i.toNat + n := by
  rw [UInt32.toNat_add, toNat_ofNat_of_lt (by omega)]
  exact Nat.mod_eq_of_lt h

theorem sub_ofNat_sub_one (i : UInt32) (n : Nat) :
    i - UInt32.ofNat n - 1 = i - UInt32.ofNat (n + 1) := by
  rw [ofNat_succ]
  grind

theorem liftVar_of_lt {amount d : UInt32} (h : i < d) : liftVar amount d i = .bvar i :=
  if_neg fun hle => absurd hle.1 (UInt32.not_le.mpr h)

theorem liftVar_of_le {d : UInt32} (h : d ≤ i) (hroom : i.toNat + n < 2 ^ 32) :
    liftVar (.ofNat n) d i = .bvar (i + .ofNat n) := by
  by_cases hmax : i < maxIndex
  · exact if_pos ⟨h, hmax⟩
  · -- only a shift by nothing has room above the largest index
    have hn : n = 0 := by
      rw [UInt32.lt_iff_toNat_lt] at hmax
      have : maxIndex.toNat = 2 ^ 32 - 1 := rfl
      omega
    rw [hn, liftVar, if_neg fun hlt => hmax hlt.2]
    exact congrArg bvar (UInt32.add_zero i).symm

/-- A value that is raised twice. -/
theorem lift_lift (hu : u.RaisableBy (a + b)) (hdepth : u.nesting < 2 ^ 32) :
    (u.lift (.ofNat a)).lift (.ofNat b) = u.lift (.ofNat (a + b)) := by
  simp only [lift_eq_mapVars, mapVars_mapVars]
  refine mapVars_congr_bvars (d := 0) (fun j i hi => ?_) (fvarsIn_of_forall (fun _ _ => rfl) u)
  have hj : j < 2 ^ 32 := by
    have := depth_of_mem_bvars hi
    omega
  rcases Nat.lt_or_ge i.toNat j with hlt | hle
  · have hij := (lt_ofNat_iff hj).mpr hlt
    rw [liftVar_of_lt hij, liftVar_of_lt hij]
    exact liftVar_of_lt hij
  · have hroom : i.toNat + (a + b) < 2 ^ 32 := hu _ hi hle
    have hij := (ofNat_le_iff hj).mpr hle
    have hadd : (i + UInt32.ofNat a).toNat = i.toNat + a := toNat_add_ofNat (by omega)
    have hija : UInt32.ofNat j ≤ i + .ofNat a := (ofNat_le_iff hj).mpr (by omega)
    rw [liftVar_of_le hij (by omega), liftVar_of_le hij hroom, UInt32.ofNat_add, ← UInt32.add_assoc]
    exact liftVar_of_le hija (by omega)

/-- A value that was raised past a binder is lowered again when that binder is
instantiated. -/
theorem mapVars_inst_lift (hu : u.RaisableBy (n + 1)) (hdn : d ≤ n)
    (hdepth : d + u.nesting < 2 ^ 32) (w : Expr) :
    mapVars (instVar w) (fun _ x => .fvar x) (.ofNat d) (u.lift (.ofNat (n + 1))) =
      u.lift (.ofNat n) := by
  rw [← UInt32.zero_add (.ofNat d), mapVars_add, lift_eq_mapVars, lift_eq_mapVars, mapVars_mapVars]
  refine mapVars_congr_bvars (d := 0) (fun j i hi => ?_) (fvarsIn_of_forall (fun _ _ => rfl) u)
  have hj := depth_of_mem_bvars hi
  have hjd : (UInt32.ofNat j + UInt32.ofNat d) = .ofNat (j + d) := (UInt32.ofNat_add j d).symm
  rcases Nat.lt_or_ge i.toNat j with hlt | hle
  · have hij := (lt_ofNat_iff (k := j) (by omega)).mpr hlt
    rw [liftVar_of_lt hij, liftVar_of_lt hij, mapVars, hjd]
    exact instVar_of_lt ((lt_ofNat_iff (by omega)).mpr (by omega))
  · have hroom : i.toNat + (n + 1) < 2 ^ 32 := hu _ hi hle
    have hij := (ofNat_le_iff (k := j) (by omega)).mpr hle
    have hadd : (i + UInt32.ofNat (n + 1)).toNat = i.toNat + (n + 1) := toNat_add_ofNat hroom
    rw [liftVar_of_le hij hroom, liftVar_of_le hij (by omega), mapVars, hjd,
      instVar_of_gt ((ofNat_lt_iff (by omega)).mpr (by omega)), ofNat_succ, ← UInt32.add_assoc,
      UInt32.add_sub_cancel]

/-! ### From the innermost variable outwards -/

section
variable {d : UInt32}

theorem revVar_of_some (hi : i.toNat = d.toNat + k) (hget : vals.reverse[k]? = some u) :
    revVar vals d i = u.lift d := by
  have hle : d ≤ i := UInt32.le_iff_toNat_le.mpr (by omega)
  have hk : (i - d).toNat = k := by
    rw [UInt32.toNat_sub_of_le _ _ hle]
    omega
  exact revVar_of_value hle (hk ▸ hget)

theorem revVar_of_le (hi : d.toNat + vals.length ≤ i.toNat) :
    revVar vals d i = .bvar (i - .ofNat vals.length) := by
  have hle : d ≤ i := UInt32.le_iff_toNat_le.mpr (by omega)
  have hnone : vals.reverse[(i - d).toNat]? = none := by
    rw [List.getElem?_eq_none_iff, List.length_reverse, UInt32.toNat_sub_of_le _ _ hle]
    omega
  rw [revVar, if_neg (UInt32.not_lt.mpr hle), hnone]

end

theorem instantiateRev_nil (e : Expr) : e.instantiateRev [] = e := by
  rw [instantiateRev_eq_mapVars]
  refine mapVars_id (fun d i => ?_) (fun _ _ => rfl) 0 e
  by_cases hi : i < d
  · exact revVar_of_lt hi
  · rw [revVar, if_neg hi]
    exact congrArg Expr.bvar (UInt32.sub_zero i)

/-- The outermost variable can be replaced after the others, if the values of these are
raised past it. -/
theorem instantiate_instantiateRev (hdepth : ∀ u ∈ vals, e.nesting + u.nesting < 2 ^ 32)
    (hroom : ∀ u ∈ vals, u.RaisableBy (k + 1 + e.nesting)) (w : Expr) :
    (e.instantiateRev (vals.map (lift (.ofNat (k + 1))))).instantiate w =
      e.instantiateRev (w :: vals.map (lift (.ofNat k))) := by
  rw [instantiate_eq_mapVars, instantiateRev_eq_mapVars, instantiateRev_eq_mapVars, mapVars_mapVars]
  refine mapVars_congr_bvars (d := 0) (fun j i hi => ?_) (fvarsIn_of_forall (fun _ _ => rfl) e)
  have hj := (depth_of_mem_bvars hi).2
  generalize hd : UInt32.ofNat j = d
  rcases Nat.lt_or_ge i.toNat d.toNat with hlt | hge
  · have hid : i < d := UInt32.lt_iff_toNat_lt.mpr hlt
    rw [revVar_of_lt hid, revVar_of_lt hid]
    exact instVar_of_lt hid
  obtain ⟨m, hm⟩ := Nat.exists_eq_add_of_le hge
  -- A variable that is not bound inside is counted from the innermost binder outwards.
  rcases Nat.lt_trichotomy m vals.length with hlt | rfl | hgt
  · -- The variable is replaced by a raised value, which is lowered again.
    obtain ⟨u, hget⟩ : ∃ u, vals.reverse[m]? = some u :=
      ⟨_, List.getElem?_eq_getElem (by simpa using hlt)⟩
    have hu : u ∈ vals := List.mem_reverse.mp (List.mem_of_getElem? hget)
    have hsum := hdepth u hu
    have hraised : ∀ n, (vals.map (lift (.ofNat n))).reverse[m]? = some (u.lift (.ofNat n)) := by
      intro n
      rw [← List.map_reverse, List.getElem?_map, hget]
      rfl
    have hcons : (w :: vals.map (lift (.ofNat k))).reverse[m]? = some (u.lift (.ofNat k)) := by
      rw [List.reverse_cons, List.getElem?_append_left (by simpa using hlt)]
      exact hraised k
    rw [revVar_of_some hm (hraised (k + 1)), revVar_of_some hm hcons, ← hd,
      lift_lift ((hroom u hu).mono (by omega)) (by omega),
      lift_lift ((hroom u hu).mono (by omega)) (by omega), show k + 1 + j = k + j + 1 by omega,
      mapVars_inst_lift ((hroom u hu).mono (by omega)) (by omega) (by omega)]
  · -- It is the variable of the outermost binder itself.
    have hi : i - .ofNat vals.length = d := by
      rw [← UInt32.toNat_inj, toNat_sub_ofNat (by omega)]
      omega
    rw [revVar_of_le (by rw [List.length_map]; omega), List.length_map, mapVars, hi, instVar,
      if_pos rfl, revVar_of_some (u := w) hm (by simp)]
  · -- It is bound further out, and is lowered by one more at both ends.
    have hi : d < i - .ofNat vals.length := by
      rw [UInt32.lt_iff_toNat_lt, toNat_sub_ofNat (by omega)]
      omega
    rw [revVar_of_le (by rw [List.length_map]; omega), List.length_map, mapVars, instVar_of_gt hi,
      revVar_of_le (by rw [List.length_cons, List.length_map]; omega), List.length_cons,
      List.length_map, sub_ofNat_sub_one]

/-- Variables that are replaced at once are replaced one after the other, the innermost one
first, each value raised past the binders that are still there. -/
theorem foldr_instantiate_eq_instantiateRev (hdepth : ∀ v ∈ vals, e.nesting + v.nesting < 2 ^ 32)
    (hroom : ∀ (j : Nat) (v : Expr), vals[j]? = some v → v.RaisableBy (k + j + e.nesting)) :
    (vals.zipIdx k).foldr (fun p e => e.instantiate (p.1.lift (.ofNat p.2))) e =
      e.instantiateRev (vals.map (lift (.ofNat k))) := by
  induction vals generalizing k with
  | nil => exact (instantiateRev_nil e).symm
  | cons v vals ih =>
    have hroom' : ∀ (j : Nat) (u : Expr), vals[j]? = some u →
        u.RaisableBy (k + 1 + j + e.nesting) :=
      fun j u hu => (hroom (j + 1) u hu).mono (by omega)
    have hroom'' : ∀ u ∈ vals, u.RaisableBy (k + 1 + e.nesting) := by
      intro u hu
      obtain ⟨j, hj⟩ := List.mem_iff_getElem?.mp hu
      exact (hroom' j u hj).mono (by omega)
    have hdepth' := fun u hu => hdepth u (List.mem_cons_of_mem v hu)
    rw [List.zipIdx_cons, List.foldr_cons, ih hdepth' hroom',
      instantiate_instantiateRev hdepth' hroom'', List.map_cons]

/-! ### From the outermost variable inwards -/

/-- Variables of which the innermost one is replaced last are replaced at once. -/
theorem instantiate_mapVars_revVar
    (hvals : ∀ w ∈ vals, w.Scoped 0 ∧ e.nesting + 1 + w.nesting < 2 ^ 32)
    (he : e.nesting + 1 < 2 ^ 32) (v : Expr) :
    (mapVars (revVar vals) (fun _ x => .fvar x) 1 e).instantiate v =
      e.instantiateRev (vals ++ [v]) := by
  rw [instantiate_eq_mapVars, instantiateRev_eq_mapVars, show (1 : UInt32) = 0 + 1 from rfl,
    mapVars_add, mapVars_mapVars]
  refine mapVars_congr_bvars (d := 0) (fun j i hi => ?_) (fvarsIn_of_forall (fun _ _ => rfl) e)
  have hj := (depth_of_mem_bvars hi).2
  have hd : (UInt32.ofNat j).toNat = j := toNat_ofNat_of_lt (by omega)
  generalize UInt32.ofNat j = d at hd ⊢
  have hd1 := toNat_index_succ (d := d) (by omega)
  rcases Nat.lt_trichotomy i.toNat d.toNat with hlt | heq | hgt
  · have hid : i < d := UInt32.lt_iff_toNat_lt.mpr hlt
    have hid1 : i < d + 1 := UInt32.lt_iff_toNat_lt.mpr (by omega)
    rw [revVar_of_lt hid1, revVar_of_lt hid]
    exact instVar_of_lt hid
  · obtain rfl : i = d := UInt32.toNat_inj.mp heq
    -- It is the innermost variable, which gets the last value.
    have hid1 : i < i + 1 := UInt32.lt_iff_toNat_lt.mpr (by omega)
    rw [revVar_of_lt hid1, mapVars, instVar, if_pos rfl,
      revVar_of_some (u := v) (Nat.add_zero _).symm (by simp)]
  obtain ⟨m, hm⟩ := Nat.exists_eq_add_of_le (show (d + 1).toNat ≤ i.toNat by omega)
  rcases Nat.lt_or_ge m vals.length with hlt | hge
  · -- The variable is replaced by a closed value, which nothing changes.
    obtain ⟨w, hget⟩ : ∃ w, vals.reverse[m]? = some w :=
      ⟨_, List.getElem?_eq_getElem (by simpa using hlt)⟩
    obtain ⟨hclosed, hdepth⟩ := hvals w (List.mem_reverse.mp (List.mem_of_getElem? hget))
    have hlift : ∀ amount, w.lift amount = w :=
      fun _ => lift_eq_self (hclosed.hasLooseBVars (by omega))
    have hsnoc : (vals ++ [v]).reverse[m + 1]? = some w := by
      rw [List.reverse_append]
      exact hget
    rw [revVar_of_some hm hget, revVar_of_some (show i.toNat = d.toNat + (m + 1) by omega) hsnoc,
      hlift, hlift]
    exact hclosed.mapVars_eq_self (fun _ _ => instVar_of_lt) (by omega)
  · -- It is bound further out, and is lowered by the number of values.
    have hi : d < i - .ofNat vals.length := by
      rw [UInt32.lt_iff_toNat_lt, toNat_sub_ofNat (by omega)]
      omega
    rw [revVar_of_le (by omega), mapVars, instVar_of_gt hi,
      revVar_of_le (by rw [List.length_append, List.length_singleton]; omega), List.length_append,
      List.length_singleton, sub_ofNat_sub_one]

end Pinpoint.Expr
