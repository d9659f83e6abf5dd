/-
Loose bound variables.

`e.bvars d` lists the bound variables that occur in `e`, each with the number of
binders around it, when `d` binders are around `e` itself.  It counts without a
bound, so it says which variables are loose, and in which range, also where the
words of the search come to their end.

* `mapVars_congr_bvars` — a traversal depends on what it does to the variables
  that occur;
* `hasLooseBVarInRange_eq_any` — the variables that the search finds;
* `search_finds_loose` — the search is right about all indices but the largest, as
  long as the start of the range does not wrap.
-/
import Pinpoint.Proofs.Renaming
import Pinpoint.Proofs.Scoping

namespace Pinpoint.Expr

/-- The bound variables that occur in a term, each with the number of binders
around it, `d` of which are around the term. -/
def bvars : Nat → Expr → List (Nat × UInt32)
  | d, .bvar i => [(d, i)]
  | d, .app f a => bvars d f ++ bvars d a
  | d, .lam _ t b => bvars d t ++ bvars (d + 1) b
  | d, .pi _ t b => bvars d t ++ bvars (d + 1) b
  | d, .letE t v b => bvars d t ++ (bvars d v ++ bvars (d + 1) b)
  | d, .mdata _ e => bvars d e
  | _, _ => []

section
variable {d j : Nat} {i : UInt32} {e : Expr}

theorem depth_of_mem_bvars (h : (j, i) ∈ e.bvars d) : d ≤ j ∧ j ≤ d + e.nesting := by
  induction e generalizing d with
  | bvar k =>
    obtain ⟨rfl, -⟩ := Prod.mk.inj (List.mem_singleton.mp h)
    exact ⟨Nat.le_refl j, Nat.le_add_right j _⟩
  | app f a ihf iha =>
    rw [nesting]
    rcases List.mem_append.mp h with h | h
    · have := ihf h
      omega
    · have := iha h
      omega
  | lam _ t b iht ihb | pi _ t b iht ihb =>
    rw [nesting]
    rcases List.mem_append.mp h with h | h
    · have := iht h
      omega
    · have := ihb h
      omega
  | letE t v b iht ihv ihb =>
    rw [nesting]
    rcases List.mem_append.mp h with h | h
    · have := iht h
      omega
    · rcases List.mem_append.mp h with h | h
      · have := ihv h
        omega
      · have := ihb h
        omega
  | mdata _ _ ih => exact ih h
  | _ => cases h

/-- Traversals agree if they agree at the variables that occur. -/
theorem mapVars_congr_bvars {f f' : UInt32 → UInt32 → Expr} {g g' : UInt32 → FVarId → Expr}
    (hf : ∀ j i, (j, i) ∈ e.bvars d → f (.ofNat j) i = f' (.ofNat j) i)
    (hg : e.FVarsIn fun x => ∀ k, g k x = g' k x) :
    mapVars f g (.ofNat d) e = mapVars f' g' (.ofNat d) e := by
  induction e generalizing d with
  | bvar i => exact hf d i List.mem_cons_self
  | fvar x => exact hg _
  | app _ _ ihf iha =>
    simp only [bvars, List.mem_append] at hf
    rw [mapVars, mapVars, ihf (fun j i hi => hf j i (.inl hi)) hg.1,
      iha (fun j i hi => hf j i (.inr hi)) hg.2]
  | lam _ _ _ iht ihb | pi _ _ _ iht ihb =>
    simp only [bvars, List.mem_append] at hf
    rw [mapVars, mapVars, iht (fun j i hi => hf j i (.inl hi)) hg.1, ← ofNat_succ,
      ihb (fun j i hi => hf j i (.inr hi)) hg.2]
  | letE _ _ _ iht ihv ihb =>
    simp only [bvars, List.mem_append] at hf
    rw [mapVars, mapVars, iht (fun j i hi => hf j i (.inl hi)) hg.1,
      ihv (fun j i hi => hf j i (.inr (.inl hi))) hg.2.1, ← ofNat_succ,
      ihb (fun j i hi => hf j i (.inr (.inr hi))) hg.2.2]
  | mdata _ _ ih => rw [mapVars, mapVars, ih hf hg]
  | _ => rfl

/-- A traversal that keeps the variables that occur keeps the term. -/
theorem mapVars_eq_self_of_bvars {f : UInt32 → UInt32 → Expr} {g : UInt32 → FVarId → Expr}
    (hf : ∀ j i, (j, i) ∈ e.bvars d → f (.ofNat j) i = .bvar i)
    (hg : e.FVarsIn fun x => ∀ k, g k x = .fvar x) : mapVars f g (.ofNat d) e = e :=
  (mapVars_congr_bvars hf hg).trans (mapVars_id (fun _ _ => rfl) (fun _ _ => rfl) _ e)

end

/-! ### The search -/

/-- The end of a range under `d` binders, which is never past the largest word. -/
def raisedStop (stop : UInt32) (d : Nat) : UInt32 := .ofNat (min (stop.toNat + d) maxIndex.toNat)

theorem toNat_raisedStop (stop : UInt32) (d : Nat) :
    (raisedStop stop d).toNat = min (stop.toNat + d) maxIndex.toNat := by
  have hmax : maxIndex.toNat = 2 ^ 32 - 1 := rfl
  rw [raisedStop, UInt32.toNat_ofNat']
  omega

theorem raisedStop_zero (stop : UInt32) : raisedStop stop 0 = stop := by
  have hmax : maxIndex.toNat = 2 ^ 32 - 1 := rfl
  have hlt := stop.toNat_lt
  rw [← UInt32.toNat_inj, toNat_raisedStop]
  omega

theorem saturatingSucc_raisedStop (stop : UInt32) (d : Nat) :
    saturatingSucc (raisedStop stop d) = raisedStop stop (d + 1) := by
  have hmax : maxIndex.toNat = 2 ^ 32 - 1 := rfl
  rw [← UInt32.toNat_inj, saturatingSucc, toNat_raisedStop]
  split
  · rename_i h
    rw [← UInt32.toNat_inj, toNat_raisedStop] at h
    omega
  · rename_i h
    rw [← UInt32.toNat_inj, toNat_raisedStop] at h
    have hle := toNat_raisedStop stop d
    rw [toNat_index_succ (by omega), hle]
    omega

/-- The search asks of each variable that occurs whether it is in the range, as far
as the range can be counted under the binders around the variable. -/
theorem hasLooseBVarInRange_eq_any (start stop : UInt32) (d : Nat) (e : Expr) :
    e.hasLooseBVarInRange (start + .ofNat d) (raisedStop stop d) =
      (e.bvars d).any fun p => start + .ofNat p.1 ≤ p.2 && p.2 < raisedStop stop p.1 := by
  have hsucc : ∀ d, start + UInt32.ofNat d + 1 = start + .ofNat (d + 1) := by
    intro d
    rw [ofNat_succ, UInt32.add_assoc]
  induction e generalizing d with
  | bvar i => simp [hasLooseBVarInRange, bvars]
  | app _ _ ihf iha => rw [hasLooseBVarInRange, bvars, List.any_append, ihf, iha]
  | lam _ _ _ iht ihb | pi _ _ _ iht ihb =>
    rw [hasLooseBVarInRange, bvars, List.any_append, hsucc, saturatingSucc_raisedStop, iht, ihb]
  | letE _ _ _ iht ihv ihb =>
    rw [hasLooseBVarInRange, bvars, List.any_append, List.any_append, hsucc,
      saturatingSucc_raisedStop, iht, ihv, ihb, Bool.or_assoc]
  | mdata _ _ ih => exact ih d
  | _ => rfl

/-- The variables that are found: the start of the range wraps under too many binders,
and the largest index is past the end of every range. -/
theorem hasLooseBVarInRange_eq_true {start stop : UInt32} {e : Expr} :
    e.hasLooseBVarInRange start stop = true ↔ ∃ d i, (d, i) ∈ e.bvars 0 ∧ i ≠ maxIndex ∧
      (start.toNat + d) % 2 ^ 32 ≤ i.toNat ∧ i.toNat < stop.toNat + d := by
  have hfound := hasLooseBVarInRange_eq_any start stop 0 e
  rw [raisedStop_zero, show start + UInt32.ofNat 0 = start from UInt32.add_zero start] at hfound
  have hmax : maxIndex.toNat = 2 ^ 32 - 1 := rfl
  have hrange : ∀ d i, (start + UInt32.ofNat d ≤ i ∧ i < raisedStop stop d) ↔
      (i ≠ maxIndex ∧ (start.toNat + d) % 2 ^ 32 ≤ i.toNat ∧ i.toNat < stop.toNat + d) := by
    intro d i
    have hlt := i.toNat_lt
    rw [UInt32.le_iff_toNat_le, UInt32.lt_iff_toNat_lt, toNat_raisedStop, UInt32.toNat_add,
      UInt32.toNat_ofNat', ne_eq, ← UInt32.toNat_inj]
    omega
  rw [hfound, List.any_eq_true]
  simp only [Bool.and_eq_true, decide_eq_true_eq, hrange, Prod.exists]

/-- The same where the start of the range does not wrap. -/
theorem hasLooseBVarInRange_eq_true_of_lt {start stop : UInt32} {e : Expr}
    (hstart : start.toNat + e.nesting < 2 ^ 32) :
    e.hasLooseBVarInRange start stop = true ↔ ∃ d i, (d, i) ∈ e.bvars 0 ∧ i ≠ maxIndex ∧
      start.toNat + d ≤ i.toNat ∧ i.toNat < stop.toNat + d := by
  rw [hasLooseBVarInRange_eq_true]
  refine exists₂_congr fun d i => and_congr_right fun hmem => ?_
  have hd := depth_of_mem_bvars hmem
  rw [Nat.mod_eq_of_lt (by omega)]

/-- The variables are bound in the term if none is found, the largest index apart. -/
theorem hasLooseBVars_eq_false {e : Expr} (hnesting : e.nesting < 2 ^ 32) :
    e.hasLooseBVars = false ↔ ∀ d i, (d, i) ∈ e.bvars 0 → i.toNat < d ∨ i = maxIndex := by
  have hzero : (0 : UInt32).toNat = 0 := rfl
  have hmax : maxIndex.toNat = 2 ^ 32 - 1 := rfl
  rw [hasLooseBVars, ← Bool.not_eq_true, hasLooseBVarInRange_eq_true_of_lt (by omega)]
  constructor
  · intro h d i hmem
    rcases Nat.lt_or_ge i.toNat d with hd | hd
    · exact .inl hd
    · refine .inr (Decidable.byContradiction fun hi => h ⟨d, i, hmem, hi, by omega, ?_⟩)
      have hlt := i.toNat_lt
      have hne : i.toNat ≠ maxIndex.toNat := fun heq => hi (UInt32.toNat_inj.mp heq)
      omega
  · rintro h ⟨d, i, hmem, hi, hle, -⟩
    rcases h d i hmem with hlt | heq
    · omega
    · exact hi heq

/-- What the search for loose variables finds.  It never finds the largest index, and
the start of its range wraps under too many binders; apart from that it finds exactly the
variables in the range, and there is none from `0` up exactly if every variable, the largest
index apart, has its binder in the term. -/
theorem search_finds_loose (e : Expr) :
    (∀ start stop : UInt32, e.hasLooseBVarInRange start stop = true ↔
      ∃ d i, (d, i) ∈ e.bvars 0 ∧ i ≠ maxIndex ∧
        (start.toNat + d) % 2 ^ 32 ≤ i.toNat ∧ i.toNat < stop.toNat + d) ∧
      (∀ start stop : UInt32, start.toNat + e.nesting < 2 ^ 32 →
        (e.hasLooseBVarInRange start stop = true ↔ ∃ d i, (d, i) ∈ e.bvars 0 ∧ i ≠ maxIndex ∧
          start.toNat + d ≤ i.toNat ∧ i.toNat < stop.toNat + d)) ∧
      (e.nesting < 2 ^ 32 →
        (e.hasLooseBVars = false ↔ ∀ d i, (d, i) ∈ e.bvars 0 → i.toNat < d ∨ i = maxIndex)) :=
  ⟨fun _ _ => hasLooseBVarInRange_eq_true, fun _ _ => hasLooseBVarInRange_eq_true_of_lt,
    hasLooseBVars_eq_false⟩

namespace Searched

/-- A binder whose type and whose body have loose variables, one of them with the largest
index. -/
def host : Expr := .lam .default (.bvar 2) (.app (.app (.bvar maxIndex) (.bvar 0)) (.bvar 4))

end Searched

open Searched in
/-- Two loose variables, one of them in the range from `3` to `4`. -/
theorem search_finds_loose_function :
    host.hasLooseBVarInRange 3 4 = true ∧ host.hasLooseBVars = true := by
  obtain ⟨-, hrange, hloose⟩ := search_finds_loose host
  have hfound : host.hasLooseBVarInRange 3 4 = true :=
    (hrange 3 4 (by decide)).mpr ⟨1, 4, by decide, by decide, by decide, by decide⟩
  refine ⟨hfound, Bool.of_not_eq_false fun hnone => ?_⟩
  rcases (hloose (by decide)).mp hnone 0 2 (by decide) with h | h
  · exact absurd h (by decide)
  · exact absurd h (by decide)

/-- The largest index has no binder, by itself or in the body of a function, where it lies
in the range of all indices; it is not found. -/
theorem largest_index_not_found :
    ((bvar maxIndex).hasLooseBVars = false ∧
      ∃ d i, (d, i) ∈ (bvar maxIndex).bvars 0 ∧ ¬ i.toNat < d) ∧
      (lam .default prop (bvar maxIndex)).hasLooseBVarInRange 0 maxIndex = false ∧
        ∃ d i, (d, i) ∈ (lam .default prop (bvar maxIndex)).bvars 0 ∧
          (0 : UInt32).toNat + d ≤ i.toNat ∧ i.toNat < maxIndex.toNat + d :=
  ⟨⟨by decide, 0, maxIndex, by decide, by decide⟩, by decide, 1, maxIndex, by decide, by decide,
    by decide⟩

end Pinpoint.Expr
