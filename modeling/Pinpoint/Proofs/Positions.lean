/-
Positions under renumbering.

A rewrite turns a position into the variable of a new binder: it renumbers
the bound variables of the term, puts the variable at the position, and
instantiates the new binder with what has to stand there.  Both directions
are traversals, so the general statements are about `Expr.reindex h`, which
renumbers, and a traversal that is to restore the numbers off the path
(`Expr.besideBVars`).

* `map_replaceWith?_reindex` — if the numbers off the path are restored, the
  result is the old term with the new one at the position;
* `skeleton_map_replaceWith?_reindex_iff` — it is the old term up to metadata
  exactly if the numbers off the path are restored and the new term is the
  old one at the position;
* `map_instantiate_abstractAt?` and `skeleton_instantiate_abstractAt?_iff` —
  the same for the binder that a rewrite makes;
* `abstractAt?_inverts` — that binder can be made where there is a subterm,
  and instantiating it is replacing;
* `replaceWith?_back` — what stood at a position can be put back where
  something else was put.
-/
import Pinpoint.Proofs.Skeleton
import Pinpoint.Proofs.Steps

namespace Pinpoint.Expr

/-- Whether all bound variables off a path are as asked. -/
def besideBVars (p : UInt32 → UInt32 → Bool) : UInt32 → Expr → Path → Bool
  | d, .mdata _ e, π => besideBVars p d e π
  | d, .app f a, .appFn :: π => besideBVars p d f π && allBVars p d a
  | d, .app f a, .appArg :: π => allBVars p d f && besideBVars p d a π
  | d, .lam _ t b, .binderType :: π => besideBVars p d t π && allBVars p (d + 1) b
  | d, .lam _ t b, .binderBody :: π => allBVars p d t && besideBVars p (d + 1) b π
  | d, .pi _ t b, .binderType :: π => besideBVars p d t π && allBVars p (d + 1) b
  | d, .pi _ t b, .binderBody :: π => allBVars p d t && besideBVars p (d + 1) b π
  | d, .letE t v b, .letType :: π =>
    besideBVars p d t π && (allBVars p d v && allBVars p (d + 1) b)
  | d, .letE t v b, .letValue :: π =>
    allBVars p d t && (besideBVars p d v π && allBVars p (d + 1) b)
  | d, .letE t v b, .letBody :: π =>
    allBVars p d t && (allBVars p d v && besideBVars p (d + 1) b π)
  | _, _, _ => true

/-- Renumbers the bound variables of a term. -/
def reindex (h : UInt32 → UInt32 → UInt32) (d : UInt32) (e : Expr) : Expr :=
  mapVars (fun d i => .bvar (h d i)) (fun _ x => .fvar x) d e

section
variable {h : UInt32 → UInt32 → UInt32} {f : UInt32 → UInt32 → Expr}
  {p : UInt32 → UInt32 → Bool} {make : UInt32 → Expr} {d : UInt32} {e : Expr} {π : Path}

@[simp] theorem besideBVars_nil (p : UInt32 → UInt32 → Bool) (d : UInt32) (e : Expr) :
    e.besideBVars p d [] = true := by
  induction e with
  | mdata _ _ ih => exact ih
  | _ => rfl

/-- Replacing in a renumbered term and then restoring the numbers off the
path is replacing in the term. -/
theorem map_replaceWith?_reindex (hf : ∀ d i, p d i → f d (h d i) = .bvar i)
    (hp : e.besideBVars p d π) :
    (replaceWith? make (reindex h d e) π d).map (mapVars f (fun _ x => .fvar x) d) =
      replaceWith? (fun d => mapVars f (fun _ x => .fvar x) d (make d)) e π d := by
  have hall : ∀ d e, allBVars p d e → mapVars f (fun _ x => .fvar x) d (reindex h d e) = e := by
    intro d e he
    rw [reindex, mapVars_mapVars]
    exact mapVars_eq_self (fun d i hi => by simpa [mapVars] using hf d i hi) (fun _ _ => rfl) he
  simp only [reindex] at hall ⊢
  induction e generalizing π d with
  | app g a ihg iha =>
    rcases π with _ | ⟨s, π⟩
    · simp [mapVars, replaceWith?]
    · cases s <;> simp [mapVars, replaceWith?, besideBVars] at hp ⊢
      · simp [← ihg hp.1, Function.comp_def, mapVars, hall _ _ hp.2]
      · simp [← iha hp.2, Function.comp_def, mapVars, hall _ _ hp.1]
  | lam i t b iht ihb | pi i t b iht ihb =>
    rcases π with _ | ⟨s, π⟩
    · simp [mapVars, replaceWith?]
    · cases s <;> simp [mapVars, replaceWith?, besideBVars] at hp ⊢
      · simp [← iht hp.1, Function.comp_def, mapVars, hall _ _ hp.2]
      · simp [← ihb hp.2, Function.comp_def, mapVars, hall _ _ hp.1]
  | letE t v b iht ihv ihb =>
    rcases π with _ | ⟨s, π⟩
    · simp [mapVars, replaceWith?]
    · cases s <;> simp [mapVars, replaceWith?, besideBVars] at hp ⊢
      · simp [← iht hp.1, Function.comp_def, mapVars, hall _ _ hp.2.1, hall _ _ hp.2.2]
      · simp [← ihv hp.2.1, Function.comp_def, mapVars, hall _ _ hp.1, hall _ _ hp.2.2]
      · simp [← ihb hp.2.2, Function.comp_def, mapVars, hall _ _ hp.1, hall _ _ hp.2.1]
  | mdata m e ih =>
    simp only [mapVars, replaceWith?, besideBVars] at hp ⊢
    simp [← ih hp, Function.comp_def, mapVars]
  | _ => rcases π with _ | ⟨_ | _, π⟩ <;> simp [mapVars, replaceWith?]

/-- Replacing in a renumbered term and then restoring the numbers gives the
term itself, up to metadata, exactly if the numbers off the path are restored
and what is put at the position is what stood there. -/
theorem skeleton_map_replaceWith?_reindex_iff
    (hf : ∀ d i, (f d (h d i)).skeleton = .bvar i ↔ p d i) {new s r : Expr}
    (hmake : ∀ d, (mapVars f (fun _ x => .fvar x) d (make d)).skeleton = new.skeleton)
    (hs : e.subterm? π = some s) (hr : replaceWith? make (reindex h d e) π d = some r) :
    (mapVars f (fun _ x => .fvar x) d r).skeleton = e.skeleton ↔
      new.skeleton = s.skeleton ∧ e.besideBVars p d π := by
  -- Off the path the numbers are restored exactly if each of them is.
  have hall : ∀ d e, (mapVars f (fun _ x => .fvar x) d (reindex h d e)).skeleton = e.skeleton ↔
      allBVars p d e := by
    intro d e
    rw [reindex, mapVars_mapVars]
    exact skeleton_mapVars_eq_iff (fun d i => by simpa [mapVars] using hf d i) d e
  simp only [reindex] at hall hr
  induction e generalizing π d r with
  | app g a ihg iha =>
    rcases π with _ | ⟨st, π⟩
    · simp [mapVars, replaceWith?, subterm?, besideBVars] at hs hr ⊢
      rw [← hr, hmake, ← hs]
    · cases st <;> simp [mapVars, replaceWith?, besideBVars, subterm?] at hs hr ⊢ <;>
        obtain ⟨r', hr', rfl⟩ := hr
      · simp [mapVars, skeleton, ihg hs hr', hall, and_assoc]
      · simp [mapVars, skeleton, iha hs hr', hall, and_left_comm]
  | lam i t b iht ihb | pi i t b iht ihb =>
    rcases π with _ | ⟨st, π⟩
    · simp [mapVars, replaceWith?, subterm?, besideBVars] at hs hr ⊢
      rw [← hr, hmake, ← hs]
    · cases st <;> simp [mapVars, replaceWith?, besideBVars, subterm?] at hs hr ⊢ <;>
        obtain ⟨r', hr', rfl⟩ := hr
      · simp [mapVars, skeleton, iht hs hr', hall, and_assoc]
      · simp [mapVars, skeleton, ihb hs hr', hall, and_left_comm]
  | letE t v b iht ihv ihb =>
    rcases π with _ | ⟨st, π⟩
    · simp [mapVars, replaceWith?, subterm?, besideBVars] at hs hr ⊢
      rw [← hr, hmake, ← hs]
    · cases st <;> simp [mapVars, replaceWith?, besideBVars, subterm?] at hs hr ⊢ <;>
        obtain ⟨r', hr', rfl⟩ := hr
      · simp [mapVars, skeleton, iht hs hr', hall, and_assoc]
      · simp [mapVars, skeleton, ihv hs hr', hall, and_left_comm, and_assoc]
      · simp [mapVars, skeleton, ihb hs hr', hall, and_left_comm]
  | mdata m e ih =>
    simp only [mapVars, replaceWith?, Option.map_eq_some_iff] at hr
    obtain ⟨r', hr', rfl⟩ := hr
    simpa [mapVars, skeleton, besideBVars] using ih (by simpa using hs) hr'
  | _ =>
    rcases π with _ | ⟨_ | _, π⟩ <;>
      simp [mapVars, replaceWith?, subterm?, besideBVars, -skeleton_bvar] at hs hr ⊢
    rw [← hr, hmake, ← hs]

end

/-! ### The binder that a rewrite makes -/

/-- The number of a variable once a binder is put around the term. -/
def shiftedIndex (d i : UInt32) : UInt32 := if d ≤ i ∧ i < maxIndex then i + 1 else i

/-- What `instantiate` puts in the place of a bound variable. -/
def instVar (v : Expr) (d i : UInt32) : Expr :=
  if i = d then v.lift d else if d < i then .bvar (i - 1) else .bvar i

theorem instVar_of_lt {v : Expr} {d i : UInt32} (h : i < d) : instVar v d i = .bvar i := by
  rw [instVar, if_neg (by grind), if_neg (by grind)]

theorem instVar_of_gt {v : Expr} {d i : UInt32} (h : d < i) : instVar v d i = .bvar (i - 1) := by
  rw [instVar, if_neg (by grind), if_pos h]

theorem instantiate_eq_mapVars (e v : Expr) :
    e.instantiate v = mapVars (instVar v) (fun _ x => .fvar x) 0 e := rfl

theorem liftAt_one_eq_reindex (d : UInt32) (e : Expr) : e.liftAt d 1 = reindex shiftedIndex d e := by
  rw [liftAt, reindex]
  congr
  funext d i
  rw [shiftedIndex]
  split <;> rfl

theorem abstractAt?_eq (e : Expr) (π : Path) :
    e.abstractAt? π = replaceWith? .bvar (reindex shiftedIndex 0 e) π 0 := by
  rw [abstractAt?, lift, liftAt_one_eq_reindex]

/-- Instantiation undoes the shift of all variables but the largest, which is
not shifted. -/
theorem instVar_shiftedIndex {v : Expr} {d i : UInt32} (hi : i ≠ maxIndex) :
    instVar v d (shiftedIndex d i) = .bvar i := by
  unfold instVar shiftedIndex
  grind [maxIndex]

theorem skeleton_instVar_shiftedIndex_iff {v : Expr} (hloose : v.hasLooseBVars = false)
    (hv : ∀ i, v.skeleton ≠ .bvar i) (d i : UInt32) :
    (instVar v d (shiftedIndex d i)).skeleton = .bvar i ↔ i ≠ maxIndex := by
  constructor
  · rintro h rfl
    have hshift : shiftedIndex d maxIndex = maxIndex := by simp [shiftedIndex]
    rw [hshift, instVar, lift_eq_self hloose] at h
    split at h
    · exact hv _ h
    · rename_i hne
      have hlt : d < maxIndex := by
        unfold maxIndex at hne ⊢
        grind
      rw [if_pos hlt, skeleton_bvar] at h
      simp [maxIndex] at h
  · intro hi
    rw [instVar_shiftedIndex hi, skeleton_bvar]

/-- A position turned into the variable of a new binder, which is then
instantiated: the term at the position is replaced. -/
theorem map_instantiate_abstractAt? {e v : Expr} {π : Path} (hv : v.hasLooseBVars = false)
    (he : e.besideBVars (fun _ i => i ≠ maxIndex) 0 π) :
    (e.abstractAt? π).map (·.instantiate v) = e.replaceAt? π v := by
  show (e.abstractAt? π).map (mapVars (instVar v) (fun _ x => .fvar x) 0) = _
  rw [abstractAt?_eq, replaceAt?]
  have hmake : ∀ d, mapVars (instVar v) (fun _ x => .fvar x) d (.bvar d) = v := fun d => by
    rw [mapVars, instVar, if_pos rfl, lift_eq_self hv]
  rw [map_replaceWith?_reindex (f := instVar v) (h := shiftedIndex)
    (fun d i hi => instVar_shiftedIndex (of_decide_eq_true hi)) he]
  simp only [hmake]

/-- Up to metadata nothing is changed exactly if the new term is the old one
at the position, and the largest index does not occur off the path. -/
theorem skeleton_instantiate_abstractAt?_iff {e v s body : Expr} {π : Path}
    (hloose : v.hasLooseBVars = false) (hv : ∀ i, v.skeleton ≠ .bvar i)
    (hs : e.subterm? π = some s) (hbody : e.abstractAt? π = some body) :
    (body.instantiate v).skeleton = e.skeleton ↔
      v.skeleton = s.skeleton ∧ e.besideBVars (fun _ i => i ≠ maxIndex) 0 π := by
  rw [abstractAt?_eq] at hbody
  have hmake : ∀ d, (mapVars (instVar v) (fun _ x => .fvar x) d (.bvar d)).skeleton =
      v.skeleton := fun d => by
    rw [mapVars, instVar, if_pos rfl, lift_eq_self hloose]
  refine skeleton_map_replaceWith?_reindex_iff (fun d i => ?_) hmake hs hbody
  rw [decide_eq_true_eq]
  exact skeleton_instVar_shiftedIndex_iff hloose hv d i

/-- Making a binder at a position undoes replacement there.  Both are possible
exactly where there is a subterm, and the binder instantiated is the term with
the new one at the position; with what stood there, if it is closed, it is the
term itself. -/
theorem abstractAt?_inverts {e v : Expr} {π : Path} (hv : v.hasLooseBVars = false)
    (he : e.besideBVars (fun _ i => i ≠ maxIndex) 0 π) :
    ((e.abstractAt? π).isSome ↔ (e.replaceAt? π v).isSome) ∧
    ((e.replaceAt? π v).isSome ↔ (e.subterm? π).isSome) ∧
    (e.abstractAt? π).map (·.instantiate v) = e.replaceAt? π v ∧
    ∀ s, e.subterm? π = some s → s.hasLooseBVars = false →
      (e.abstractAt? π).map (·.instantiate s) = some e := by
  have hinst := map_instantiate_abstractAt? hv he
  refine ⟨?_, ?_, hinst, ?_⟩
  · rw [← hinst, Option.isSome_map]
  · rw [replaceAt?, isSome_replaceWith?]
  · intro s hs hloose
    rw [map_instantiate_abstractAt? hloose he, replaceAt?, replaceWith?_subterm? hs]

/-- A position under a binder, with a loose variable and the variable of the
binder beside it. -/
theorem abstractAt?_inverts_binderBody :
    let e : Expr := .lam .default (.bvar 3) (.app (.app (.bvar 1) (.bvar 0)) (.fvar ⟨5⟩))
    let π : Path := [.binderBody, .appArg]
    let v : Expr := .sort .zero
    v.hasLooseBVars = false ∧ e.besideBVars (fun _ i => i ≠ maxIndex) 0 π ∧
    (Expr.fvar ⟨5⟩).hasLooseBVars = false ∧ e.subterm? π = some (.fvar ⟨5⟩) ∧
    (e.abstractAt? π).map (·.instantiate v) = e.replaceAt? π v ∧
    (e.abstractAt? π).map (·.instantiate (.fvar ⟨5⟩)) = some e := by
  intro e π v
  have hv : v.hasLooseBVars = false := by decide
  have he : e.besideBVars (fun _ i => i ≠ maxIndex) 0 π := by decide
  have hs : e.subterm? π = some (.fvar ⟨5⟩) := by decide
  have hloose : (Expr.fvar ⟨5⟩).hasLooseBVars = false := by decide
  have h := abstractAt?_inverts hv he
  exact ⟨hv, he, hloose, hs, h.2.2.1, h.2.2.2 _ hs hloose⟩

/-- Lifting makes no term a variable that was none. -/
theorem skeleton_lift_ne_bvar {v : Expr} (hv : ∀ i, v.skeleton ≠ .bvar i) (amount i : UInt32) :
    (v.lift amount).skeleton ≠ .bvar i := by
  rw [lift, liftAt]
  induction v with
  | bvar j => exact absurd rfl (hv j)
  | mdata m e ih => exact ih hv
  | _ => simp [mapVars, skeleton]

/-- Instantiation keeps a term, up to metadata, exactly if it is closed. -/
theorem skeleton_instantiate_eq_iff {v : Expr} (hv : ∀ i, v.skeleton ≠ .bvar i) (e : Expr) :
    (e.instantiate v).skeleton = e.skeleton ↔ e.closedUnder 0 := by
  refine skeleton_mapVars_eq_iff (f := instVar v) (fun d i => ?_) 0 e
  rw [instVar]
  by_cases hid : i = d
  · rw [if_pos hid]
    constructor
    · intro h
      exact absurd h (skeleton_lift_ne_bvar hv d i)
    · intro h
      grind
  · rw [if_neg hid]
    split
    · rw [skeleton_bvar]
      grind
    · rw [skeleton_bvar]
      grind

/-- A term with a new part below its root is no variable. -/
theorem skeleton_mapVars_replaceWith?_ne_bvar {make : UInt32 → Expr} {f : UInt32 → UInt32 → Expr}
    {g : UInt32 → FVarId → Expr} {e r : Expr} {s : Step} {π : Path} {d : UInt32}
    (h : replaceWith? make e (s :: π) d = some r) (d' i : UInt32) :
    (mapVars f g d' r).skeleton ≠ .bvar i := by
  induction e generalizing r with
  | mdata m e ih =>
    rw [replaceWith?] at h
    obtain ⟨r', hr', rfl⟩ := Option.map_eq_some_iff.mp h
    show (mapVars f g d' r').skeleton ≠ _
    exact ih hr'
  | app _ _ _ _ | lam _ _ _ _ _ | pi _ _ _ _ _ | letE _ _ _ _ _ _ =>
    cases s <;> simp [replaceWith?] at h <;> obtain ⟨r', -, rfl⟩ := h <;>
      simp [mapVars, skeleton]
  | _ => simp [replaceWith?] at h

/-- What is made by a rewrite below the root is no variable. -/
theorem skeleton_instantiate_abstractAt?_ne_bvar {e v body : Expr} {π : Path} (hπ : π ≠ [])
    (hbody : e.abstractAt? π = some body) (i : UInt32) :
    (body.instantiate v).skeleton ≠ .bvar i := by
  obtain ⟨s, π, rfl⟩ := List.exists_cons_of_ne_nil hπ
  exact skeleton_mapVars_replaceWith?_ne_bvar hbody 0 i

/-! ### A position where something was replaced -/

section
variable {p : UInt32 → UInt32 → Bool} {make : UInt32 → Expr} {d d' : UInt32} {e e' new : Expr}
  {π : Path}

/-- Nothing beside a position is changed by what is put there. -/
theorem besideBVars_of_replaceWith? (h : replaceWith? make e π d' = some e') :
    e'.besideBVars p d π = e.besideBVars p d π := by
  induction e generalizing π d d' e' with
  | app f a ihf iha =>
    rcases π with _ | ⟨s, π⟩
    · rw [besideBVars_nil, besideBVars_nil]
    · cases s <;> simp only [replaceWith?, Option.map_eq_some_iff, reduceCtorEq] at h <;>
        obtain ⟨part, hpart, rfl⟩ := h
      · rw [besideBVars, besideBVars, ihf hpart]
      · rw [besideBVars, besideBVars, iha hpart]
  | lam i t b iht ihb | pi i t b iht ihb =>
    rcases π with _ | ⟨s, π⟩
    · rw [besideBVars_nil, besideBVars_nil]
    · cases s <;> simp only [replaceWith?, Option.map_eq_some_iff, reduceCtorEq] at h <;>
        obtain ⟨part, hpart, rfl⟩ := h
      · rw [besideBVars, besideBVars, iht hpart]
      · rw [besideBVars, besideBVars, ihb hpart]
  | letE t v b iht ihv ihb =>
    rcases π with _ | ⟨s, π⟩
    · rw [besideBVars_nil, besideBVars_nil]
    · cases s <;> simp only [replaceWith?, Option.map_eq_some_iff, reduceCtorEq] at h <;>
        obtain ⟨part, hpart, rfl⟩ := h
      · rw [besideBVars, besideBVars, iht hpart]
      · rw [besideBVars, besideBVars, ihv hpart]
      · rw [besideBVars, besideBVars, ihb hpart]
  | mdata m e ih =>
    rw [replaceWith?] at h
    obtain ⟨part, hpart, rfl⟩ := Option.map_eq_some_iff.mp h
    rw [besideBVars, besideBVars, ih hpart]
  | _ =>
    rcases π with _ | ⟨_ | _, π⟩ <;> simp [replaceWith?] at h
    rw [besideBVars_nil, besideBVars_nil]

theorem skeleton_withRoot (e new : Expr) : (e.withRoot new).skeleton = new.skeleton := by
  rw [← skeleton_stripMData, stripMData_withRoot, skeleton_stripMData]

/-- At the root everything is replaced but the metadata around it. -/
theorem skeleton_replaceWith?_nil (make : UInt32 → Expr) (e : Expr) (d : UInt32) :
    ∃ part, replaceWith? make e [] d = some part ∧ part.skeleton = (make d).skeleton :=
  ⟨_, replaceWith?_nil make e d, skeleton_withRoot e _⟩

theorem skeleton_withChild {e c part : Expr} {s : Step} (hc : e.child? s = some c)
    (hpart : part.skeleton = c.skeleton) : (e.withChild s part).skeleton = e.skeleton := by
  induction e with
  | mdata m e ih => exact ih hc
  | _ => cases s <;> simp_all [child?, withChild, skeleton]

/-- What stood at a position can be put back. -/
theorem replaceWith?_back {old s : Expr} (h : replaceWith? make e π d' = some e')
    (hs : e.subterm? π = some s) (hold : old.skeleton = s.skeleton) :
    ∃ e₂, replaceWith? (fun _ => old) e' π d = some e₂ ∧ e₂.skeleton = e.skeleton := by
  induction π generalizing d d' e e' with
  | nil =>
    obtain ⟨e₂, he₂, hskel⟩ := skeleton_replaceWith?_nil (fun _ => old) e' d
    rw [subterm?_nil] at hs
    refine ⟨e₂, he₂, ?_⟩
    rw [hskel, hold, ← Option.some.inj hs, skeleton_stripMData]
  | cons step π ih =>
    obtain ⟨c, hc, part, hpart, rfl⟩ := replaceWith?_cons_eq_some.mp h
    rw [subterm?_cons, hc, Option.bind_some] at hs
    obtain ⟨part₂, hpart₂, hskel⟩ := ih (d := d + step.binders) hpart hs
    refine ⟨e.withChild step part₂, replaceWith?_cons_eq_some.mpr ?_, skeleton_withChild hc hskel⟩
    exact ⟨part, child?_withChild_self hc part, part₂, hpart₂, withChild_withChild_self _ _ _ _⟩

end

end Pinpoint.Expr
