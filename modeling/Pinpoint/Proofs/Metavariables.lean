/-
Metavariables and the terms that fill them.

Inside terms a metavariable is a free variable, so filling holes is replacing
free variables; a term without metavariables stays as it is.

* `bindFVars?_eq_some_iff` — when variables are replaced, and by what;
* `instantiateUpTo_eq_self` — terms without holes stay as they are;
* `scoped_instantiateUpTo`, `fvarsIn_instantiateUpTo` — what is brought in by
  filling holes;
* `Forward.instantiate?_isSome`, `Forward.acyclic` — where values mention later
  metavariables only, filling holes ends and no metavariable needs itself.
-/
import Mathlib.Logic.Relation
import Pinpoint.Metavariable
import Pinpoint.Proofs.Renaming
import Pinpoint.Proofs.Scoping

namespace Pinpoint

/-- Replacements that all variables have are put in by a traversal, whatever the number of
binders that it begins with. -/
theorem Expr.bindFVars?_eq_mapVars {f : FVarId → Option Expr} {g : FVarId → Expr} {e : Expr}
    (h : e.FVarsIn fun x => f x = some (g x)) (d : UInt32) :
    e.bindFVars? f = some (mapVars (fun _ i => .bvar i) (fun _ x => g x) d e) := by
  induction e generalizing d with
  | fvar x => exact h
  | app _ _ ihf iha => rw [bindFVars?, ihf h.1 d, iha h.2 d]; rfl
  | lam _ _ _ iht ihb | pi _ _ _ iht ihb => rw [bindFVars?, iht h.1 d, ihb h.2 (d + 1)]; rfl
  | letE _ _ _ iht ihv ihb => rw [bindFVars?, iht h.1 d, ihv h.2.1 d, ihb h.2.2 (d + 1)]; rfl
  | mdata _ _ ih => rw [bindFVars?, ih h d]; rfl
  | _ => rfl

/-- If variables are replaced, there is something to replace each of them. -/
theorem Expr.FVarsIn.of_bindFVars? {f : FVarId → Option Expr} {e e' : Expr}
    (h : e.bindFVars? f = some e') : e.FVarsIn fun x => (f x).isSome := by
  induction e generalizing e' with
  | fvar x => exact Option.isSome_of_mem h
  | app g a ihg iha =>
    obtain ⟨g', hg, h⟩ := Option.bind_eq_some_iff.mp h
    obtain ⟨a', ha, -⟩ := Option.bind_eq_some_iff.mp h
    exact ⟨ihg hg, iha ha⟩
  | lam i t b iht ihb | pi i t b iht ihb =>
    obtain ⟨t', ht, h⟩ := Option.bind_eq_some_iff.mp h
    obtain ⟨b', hb, -⟩ := Option.bind_eq_some_iff.mp h
    exact ⟨iht ht, ihb hb⟩
  | letE t v b iht ihv ihb =>
    obtain ⟨t', ht, h⟩ := Option.bind_eq_some_iff.mp h
    obtain ⟨v', hv, h⟩ := Option.bind_eq_some_iff.mp h
    obtain ⟨b', hb, -⟩ := Option.bind_eq_some_iff.mp h
    exact ⟨iht ht, ihv hv, ihb hb⟩
  | mdata m e ih =>
    obtain ⟨e₁, he₁, -⟩ := Option.bind_eq_some_iff.mp h
    exact @ih e₁ he₁
  | _ => trivial

/-- Variables are replaced if there is something to replace each of them, and then by a
traversal. -/
theorem Expr.bindFVars?_eq_some_iff {f : FVarId → Option Expr} {e e' : Expr} :
    e.bindFVars? f = some e' ↔ (e.FVarsIn fun x => (f x).isSome) ∧
      e' = mapVars (fun _ i => .bvar i) (fun _ x => (f x).getD (.fvar x)) 0 e := by
  have hmap : (e.FVarsIn fun x => (f x).isSome) → e.bindFVars? f =
      some (mapVars (fun _ i => .bvar i) (fun _ x => (f x).getD (.fvar x)) 0 e) := by
    intro hfound
    refine bindFVars?_eq_mapVars (hfound.mono fun x hx => ?_) 0
    obtain ⟨v, hv⟩ := Option.isSome_iff_exists.mp hx
    rw [hv, Option.getD_some]
  constructor
  · intro h
    have hfound := FVarsIn.of_bindFVars? h
    exact ⟨hfound, Option.some.inj (h.symm.trans (hmap hfound))⟩
  · rintro ⟨hfound, rfl⟩
    exact hmap hfound

/-- Variables can be replaced all together if they can be one by one. -/
theorem Expr.bindFVars?_isSome_iff {f : FVarId → Option Expr} {e : Expr} :
    (e.bindFVars? f).isSome ↔ e.FVarsIn fun x => (f x).isSome := by
  rw [Option.isSome_iff_exists]
  simp only [bindFVars?_eq_some_iff, exists_and_left, exists_eq, and_true]

/-- A term whose variables are replaced by themselves stays as it is. -/
theorem Expr.bindFVars?_eq_self {f : FVarId → Option Expr} {e : Expr}
    (h : e.FVarsIn fun x => f x = some (.fvar x)) : e.bindFVars? f = some e :=
  (bindFVars?_eq_mapVars h 0).trans
    (congrArg some (mapVars_id (fun _ _ => rfl) (fun _ _ => rfl) 0 e))

/-- A variable from outside the range of the metavariables comes before it. -/
theorem MetaId.lt_of_ofFVar?_eq_none {x : FVarId} (h : MetaId.ofFVar? x = none) :
    x.id.toNat < 2 ^ 40 := by
  unfold ofFVar? at h
  split at h
  · cases h
  · rename_i hbase
    rw [UInt64.le_iff_toNat_le] at hbase
    exact Nat.lt_of_not_le hbase

namespace MetaContext

variable {ms : MetaContext} {depth : Nat} {e e' f f' a a' v : Expr} {x : FVarId} {m : MetaId}

theorem get?_push_of_lt (h : m.index.toNat < ms.metas.length) (type : Expr) :
    (ms.push type).get? m = ms.get? m :=
  List.getElem?_append_left h

theorem toNat_nextId (h : ms.metas.length < 2 ^ 64) : ms.nextId.index.toNat = ms.metas.length :=
  UInt64.toNat_ofNat_of_lt' h

theorem length_push_assign (ms : MetaContext) (type : Expr) (m : MetaId) (v : Expr) :
    ((ms.push type).assign m v).metas.length = ms.metas.length + 1 := by
  simp [assign, push]

theorem get?_push_nextId (h : ms.metas.length < 2 ^ 64) (type : Expr) :
    (ms.push type).get? ms.nextId = some ⟨type, none⟩ := by
  show (ms.metas ++ [⟨type, none⟩])[ms.nextId.index.toNat]? = _
  rw [toNat_nextId h, List.getElem?_append_right (Nat.le_refl _), Nat.sub_self]
  rfl

theorem eq_of_toNat_index {m m' : MetaId} (h : m.index.toNat = m'.index.toNat) : m = m' := by
  cases m
  cases m'
  exact congrArg MetaId.mk (UInt64.toNat_inj.mp h)

/-- A metavariable once there is one more is one from before or the new one. -/
theorem get?_push_eq_some {type : Expr} {w : Metavariable} (h : (ms.push type).get? m = some w) :
    ms.get? m = some w ∨ m.index.toNat = ms.metas.length ∧ w = ⟨type, none⟩ := by
  have h : (ms.metas ++ [⟨type, none⟩])[m.index.toNat]? = some w := h
  rcases Nat.lt_or_ge m.index.toNat ms.metas.length with hlt | hge
  · rw [List.getElem?_append_left hlt] at h
    exact .inl h
  · rw [List.getElem?_append_right hge, List.getElem?_singleton] at h
    split at h
    · exact .inr ⟨by omega, (Option.some.inj h).symm⟩
    · cases h

/-- A metavariable once one of them has a value is that one, or as it was. -/
theorem get?_assign_eq_some {m' : MetaId} {w : Metavariable} (h : (ms.assign m v).get? m' = some w) :
    m = m' ∧ w.value = some v ∨ m ≠ m' ∧ ms.get? m' = some w := by
  by_cases hm : m.index.toNat = m'.index.toNat
  · obtain rfl := eq_of_toNat_index hm
    have h : (ms.metas.modify m.index.toNat _)[m.index.toNat]? = some w := h
    rw [List.getElem?_modify_eq] at h
    obtain ⟨w', -, rfl⟩ := Option.map_eq_some_iff.mp h
    exact .inl ⟨rfl, rfl⟩
  · have h : (ms.metas.modify m.index.toNat _)[m'.index.toNat]? = some w := h
    rw [List.getElem?_modify_ne _ _ hm] at h
    exact .inr ⟨fun heq => hm (heq ▸ rfl), h⟩

theorem get?_assign_of_ne {m' : MetaId} (h : m.index.toNat ≠ m'.index.toNat) (v : Expr) :
    (ms.assign m v).get? m' = ms.get? m' :=
  List.getElem?_modify_ne _ _ h

theorem get?_assign_self {w : Metavariable} (h : ms.get? m = some w) (v : Expr) :
    (ms.assign m v).get? m = some { w with value := some v } := by
  show (ms.metas.modify _ _)[m.index.toNat]? = _
  rw [List.getElem?_modify_eq, show ms.metas[m.index.toNat]? = some w from h]
  rfl

theorem value?_assign_self {w : Metavariable} (h : ms.get? m = some w) (v : Expr) :
    (ms.assign m v).value? m = some v := by
  rw [value?, get?_assign_self h]
  rfl

theorem lt_of_get? {w : Metavariable} (h : ms.get? m = some w) :
    m.index.toNat < ms.metas.length :=
  (List.getElem?_eq_some_iff.mp h).1

/-- A value does not change what a metavariable has to prove. -/
theorem exists_get?_assign {m' : MetaId} {w : Metavariable} (h : ms.get? m' = some w) (v : Expr) :
    ∃ w', (ms.assign m v).get? m' = some w' ∧ w'.type = w.type := by
  by_cases hm : m.index.toNat = m'.index.toNat
  · obtain rfl := eq_of_toNat_index hm
    exact ⟨_, get?_assign_self h v, rfl⟩
  · exact ⟨w, (get?_assign_of_ne hm v).trans h, rfl⟩

/-- Where each metavariable comes from, once one of them has a value. -/
theorem get?_assign_cases {m' : MetaId} {w w₀ : Metavariable} (h₀ : ms.get? m = some w₀)
    (h : (ms.assign m v).get? m' = some w) :
    m = m' ∧ w = { w₀ with value := some v } ∨ m ≠ m' ∧ ms.get? m' = some w := by
  rcases get?_assign_eq_some h with ⟨rfl, -⟩ | h'
  · rw [get?_assign_self h₀] at h
    exact .inl ⟨rfl, (Option.some.inj h).symm⟩
  · exact .inr h'

/-- Where each metavariable comes from, once there is one more and an older one has
a value. -/
theorem get?_push_assign_cases {m' : MetaId} {w w₀ : Metavariable} {type : Expr}
    (h₀ : ms.get? m = some w₀) (h : ((ms.push type).assign m v).get? m' = some w) :
    m = m' ∧ w = { w₀ with value := some v } ∨
      m ≠ m' ∧ (ms.get? m' = some w ∨ m'.index.toNat = ms.metas.length ∧ w = ⟨type, none⟩) := by
  have h₀ := (get?_push_of_lt (lt_of_get? h₀) type).trans h₀
  exact (get?_assign_cases h₀ h).imp_right fun ⟨hne, h⟩ => ⟨hne, get?_push_eq_some h⟩

theorem exists_get?_push_assign {m' : MetaId} {w : Metavariable} (h : ms.get? m' = some w)
    (type : Expr) (m : MetaId) (v : Expr) :
    ∃ w', ((ms.push type).assign m v).get? m' = some w' ∧ w'.type = w.type :=
  exists_get?_assign ((get?_push_of_lt (lt_of_get? h) type).trans h) v

/-- The new metavariable has no value. -/
theorem get?_push_assign_nextId {w : Metavariable} (hlen : ms.metas.length < 2 ^ 64)
    (hm : ms.get? m = some w) (type v : Expr) :
    ((ms.push type).assign m v).get? ms.nextId = some ⟨type, none⟩ := by
  have hlt := lt_of_get? hm
  rw [get?_assign_of_ne (by rw [toNat_nextId hlen]; omega)]
  exact get?_push_nextId hlen type

/-- A value does not change the types. -/
theorem type_of_mem_assign {w : Metavariable} (h : w ∈ (ms.assign m v).metas) :
    ∃ w' ∈ ms.metas, w.type = w'.type := by
  obtain ⟨i, hi⟩ := List.mem_iff_getElem?.mp h
  rw [show (ms.assign m v).metas = ms.metas.modify _ _ from rfl, List.getElem?_modify] at hi
  obtain ⟨w', hw', rfl⟩ := Option.map_eq_some_iff.mp hi
  refine ⟨w', List.mem_iff_getElem?.mpr ⟨i, hw'⟩, ?_⟩
  split <;> rfl

/-- Whether a free variable is a metavariable. -/
def Has (ms : MetaContext) (x : FVarId) : Prop :=
  ∃ i < ms.metas.length, x = MetaId.toFVar ⟨.ofNat i⟩

/-- A free variable that stands for a metavariable that there is. -/
theorem has_of_get? {w : Metavariable} (h : (MetaId.ofFVar? x).bind ms.get? = some w) :
    ∃ m : MetaId, x = m.toFVar ∧ ms.get? m = some w := by
  obtain ⟨m, hm, hw⟩ := Option.bind_eq_some_iff.mp h
  refine ⟨m, ?_, hw⟩
  unfold MetaId.ofFVar? at hm
  split at hm
  · obtain rfl := Option.some.inj hm
    obtain ⟨id⟩ := x
    refine congrArg FVarId.mk ?_
    show id = MetaId.base + (id - MetaId.base)
    rw [UInt64.add_comm, UInt64.sub_add_cancel]
  · cases hm

theorem has_toFVar {w : Metavariable} (h : ms.get? m = some w) : ms.Has m.toFVar :=
  ⟨m.index.toNat, (List.getElem?_eq_some_iff.mp h).1, by rw [UInt64.ofNat_toNat]⟩

theorem Has.exists_get? (hx : ms.Has x) (hlen : ms.metas.length ≤ 2 ^ 64) :
    ∃ m w, x = MetaId.toFVar m ∧ ms.get? m = some w := by
  obtain ⟨i, hi, rfl⟩ := hx
  refine ⟨_, ms.metas[i], rfl, ?_⟩
  show ms.metas[(UInt64.ofNat i).toNat]? = _
  rw [UInt64.toNat_ofNat_of_lt' (Nat.lt_of_lt_of_le hi hlen), List.getElem?_eq_getElem hi]

theorem mem_toList {w : Metavariable} (hlen : ms.metas.length ≤ 2 ^ 64) :
    (m, w) ∈ ms.toList ↔ ms.get? m = some w := by
  constructor
  · intro h
    obtain ⟨⟨w', i⟩, hi, heq⟩ := List.mem_map.mp h
    obtain ⟨rfl, rfl⟩ := Prod.mk.inj heq
    obtain ⟨hlt, hw⟩ := List.mem_zipIdx' hi
    show ms.metas[(UInt64.ofNat i).toNat]? = _
    rw [UInt64.toNat_ofNat_of_lt' (Nat.lt_of_lt_of_le hlt hlen), List.getElem?_eq_getElem hlt, hw]
  · intro h
    refine List.mem_map.mpr ⟨(w, m.index.toNat), List.mk_mem_zipIdx_iff_getElem?.mpr h, ?_⟩
    show (MetaId.mk (.ofNat m.index.toNat), w) = _
    rw [UInt64.ofNat_toNat]

theorem valueOf?_eq_none_of_not_has (hx : ¬ ms.Has x) : ms.valueOf? x = none := by
  refine Option.eq_none_iff_forall_ne_some.mpr fun v hv => hx ?_
  obtain ⟨m, hm, hv⟩ := Option.bind_eq_some_iff.mp hv
  obtain ⟨w, hw, -⟩ := Option.bind_eq_some_iff.mp hv
  obtain ⟨m', rfl, hw'⟩ := has_of_get? (Option.bind_eq_some_iff.mpr ⟨m, hm, hw⟩)
  exact has_toFVar hw'

theorem toNat_toFVar (hm : m.index.toNat < 2 ^ 40) :
    m.toFVar.id.toNat = 2 ^ 40 + m.index.toNat := by
  show (MetaId.base + m.index).toNat = _
  rw [UInt64.toNat_add, show MetaId.base.toNat = 2 ^ 40 from rfl]
  omega

/-- The free variables of the metavariables have the numbers from `2 ^ 40` up. -/
theorem has_iff (hlen : 2 ^ 40 + ms.metas.length ≤ 2 ^ 64) :
    ms.Has x ↔ 2 ^ 40 ≤ x.id.toNat ∧ x.id.toNat < 2 ^ 40 + ms.metas.length := by
  have hbase : MetaId.base.toNat = 2 ^ 40 := rfl
  have htoNat : ∀ i < ms.metas.length, (MetaId.toFVar ⟨.ofNat i⟩).id.toNat = 2 ^ 40 + i := by
    intro i hi
    show (MetaId.base + UInt64.ofNat i).toNat = _
    rw [UInt64.toNat_add, UInt64.toNat_ofNat_of_lt' (show i < 2 ^ 64 by omega), hbase,
      Nat.mod_eq_of_lt (by omega)]
  constructor
  · rintro ⟨i, hi, rfl⟩
    have := htoNat i hi
    omega
  · rintro ⟨hle, hlt⟩
    refine ⟨x.id.toNat - 2 ^ 40, by omega, ?_⟩
    have hid : x.id.toNat = (MetaId.toFVar ⟨.ofNat (x.id.toNat - 2 ^ 40)⟩).id.toNat := by
      rw [htoNat _ (by omega)]
      omega
    exact congrArg FVarId.mk (UInt64.toNat_inj.mp hid)

theorem ofFVar?_toFVar (hm : m.index.toNat < 2 ^ 40) : MetaId.ofFVar? m.toFVar = some m := by
  have hid := toNat_toFVar hm
  have hbase : MetaId.base ≤ m.toFVar.id := by
    rw [UInt64.le_iff_toNat_le, hid, show MetaId.base.toNat = 2 ^ 40 from rfl]
    omega
  have hsub : m.toFVar.id - MetaId.base = m.index := by
    show MetaId.base + m.index - MetaId.base = m.index
    rw [UInt64.add_comm, UInt64.add_sub_cancel]
  rw [MetaId.ofFVar?, if_pos hbase, hsub]

theorem valueOf?_toFVar (hm : m.index.toNat < 2 ^ 40) : ms.valueOf? m.toFVar = ms.value? m := by
  rw [valueOf?, ofFVar?_toFVar hm]
  rfl

theorem lt_of_value? (h : ms.value? m = some v) : m.index.toNat < ms.metas.length := by
  obtain ⟨w, hw, -⟩ := Option.bind_eq_some_iff.mp h
  exact (List.getElem?_eq_some_iff.mp hw).1

/-- A term without metavariables that have a value has no holes. -/
theorem instantiateUpTo_eq_self (h : e.FVarsIn fun x => ms.valueOf? x = none) :
    ms.instantiateUpTo depth e = some e := by
  cases depth with
  | zero => exact Expr.bindFVars?_eq_self (h.mono fun x hx => by rw [hx]; rfl)
  | succ depth => exact Expr.bindFVars?_eq_self (h.mono fun x hx => by rw [hx])

/-- A term without metavariables stays as it is. -/
theorem eq_of_instantiate? (he : e.FVarsIn fun x => ¬ ms.Has x)
    (h : ms.instantiate? e = some e') : e = e' :=
  Option.some.inj ((instantiateUpTo_eq_self (he.mono fun _ => valueOf?_eq_none_of_not_has)).symm.trans h)

/-- A hole is filled with its value, of which the holes are filled. -/
theorem instantiateUpTo_fvar (h : ms.valueOf? x = some v) :
    ms.instantiateUpTo (depth + 1) (.fvar x) = ms.instantiateUpTo depth v := by
  rw [instantiateUpTo, Expr.bindFVars?, h]

end MetaContext

/-! ### Bound variables -/

/-- Filling holes with well-scoped terms keeps a term well scoped. -/
theorem Expr.Scoped.bindFVars? {f : FVarId → Option Expr} (hf : ∀ x v, f x = some v → v.Scoped 0)
    {n : Nat} {e e' : Expr} (h : e.bindFVars? f = some e') (he : e.Scoped n) : e'.Scoped n := by
  obtain ⟨-, rfl⟩ := bindFVars?_eq_some_iff.mp h
  refine Scoped.mapVars (m := n) (k := 0) (fun _ _ hi => hi) (fun _ x => ?_) he
  cases hx : f x with
  | none => trivial
  | some v => exact (hf x v hx).mono (Nat.zero_le _)

/-- A term whose holes are filled with well-scoped terms was well scoped before,
for a hole has no bound variables. -/
theorem Expr.Scoped.of_bindFVars? {f : FVarId → Option Expr} {n : Nat} {e e' : Expr}
    (h : e.bindFVars? f = some e') (he : e'.Scoped n) : e.Scoped n := by
  obtain ⟨-, rfl⟩ := bindFVars?_eq_some_iff.mp h
  exact Scoped.of_mapVars (m := n) (k := 0) (fun _ _ hi => hi) he

namespace MetaContext

variable {ms : MetaContext}

theorem scoped_of_instantiateUpTo {depth n : Nat} {e e' : Expr}
    (h : ms.instantiateUpTo depth e = some e') (he : e'.Scoped n) : e.Scoped n := by
  cases depth <;> exact Expr.Scoped.of_bindFVars? h he

theorem mem_of_valueOf? {x : FVarId} {v : Expr} (h : ms.valueOf? x = some v) :
    ∃ m ∈ ms.metas, m.value = some v := by
  obtain ⟨i, -, h⟩ := Option.bind_eq_some_iff.mp h
  obtain ⟨m, hm, hv⟩ := Option.bind_eq_some_iff.mp h
  exact ⟨m, List.mem_of_getElem? hm, hv⟩

theorem scoped_instantiateUpTo (hms : ∀ m ∈ ms.metas, ∀ e, m.value = some e → e.Scoped 0)
    {depth n : Nat} {e e' : Expr} (h : ms.instantiateUpTo depth e = some e') (he : e.Scoped n) :
    e'.Scoped n := by
  induction depth generalizing n e e' with
  | zero =>
    refine Expr.Scoped.bindFVars? (fun x v hv => ?_) h he
    split at hv
    · cases hv
    · exact Option.some.inj hv ▸ trivial
  | succ depth ih =>
    refine Expr.Scoped.bindFVars? (fun x v hv => ?_) h he
    split at hv
    · rename_i w hw
      obtain ⟨m, hm, hmw⟩ := mem_of_valueOf? hw
      exact ih hv (hms m hm w hmw)
    · exact Option.some.inj hv ▸ trivial

end MetaContext

/-! ### Values that mention later metavariables only -/

namespace Expr

variable {p q : FVarId → Prop} {f : FVarId → Option Expr} {e e' : Expr}

/-- What fills the holes of a term is all that is brought in. -/
theorem FVarsIn.bindFVars? (h : e.FVarsIn p) (hf : ∀ x v, p x → f x = some v → v.FVarsIn q)
    (he : e.bindFVars? f = some e') : e'.FVarsIn q := by
  obtain ⟨hfound, rfl⟩ := bindFVars?_eq_some_iff.mp he
  refine FVarsIn.mapVars (fun _ i => ?_) (fun _ x hx => ?_) (h.and hfound) 0
  · exact trivial
  obtain ⟨v, hv⟩ := Option.isSome_iff_exists.mp hx.2
  rw [hv]
  exact hf x v hx.1 hv

end Expr

namespace MetaContext

variable {ms : MetaContext} {depth : Nat} {e e' : Expr} {m m' : MetaId} {q : FVarId → Prop}

/-- What a term mentions once its holes are filled. -/
theorem fvarsIn_instantiateUpTo (hms : ∀ m v, ms.value? m = some v → v.FVarsIn q)
    (he : e.FVarsIn q) (h : ms.instantiateUpTo depth e = some e') :
    e'.FVarsIn fun x => q x ∧ ms.valueOf? x = none := by
  induction depth generalizing e e' with
  | zero =>
    refine he.bindFVars? (fun x v hx hv => ?_) h
    split at hv
    · cases hv
    · rename_i hnone
      exact Option.some.inj hv ▸ ⟨hx, by simpa using hnone⟩
  | succ depth ih =>
    refine he.bindFVars? (fun x v hx hv => ?_) h
    split at hv
    · rename_i w hw
      obtain ⟨m, -, hw⟩ := Option.bind_eq_some_iff.mp hw
      exact ih (hms m w hw) hv
    · rename_i hnone
      exact Option.some.inj hv ▸ ⟨hx, hnone⟩

/-- A term with its holes filled has none left. -/
theorem fvarsIn_instantiate? (h : ms.instantiate? e = some e') :
    e'.FVarsIn fun x => ms.valueOf? x = none :=
  (fvarsIn_instantiateUpTo (q := fun _ => True) (fun _ v _ => v.fvarsIn_of_forall fun _ => trivial)
    (e.fvarsIn_of_forall fun _ => trivial) h).mono fun _ hx => hx.2

/-- Whether the value of each metavariable mentions later metavariables
only. -/
def Forward (ms : MetaContext) : Prop :=
  ∀ m v, ms.value? m = some v →
    v.FVarsIn fun x => ∀ m', MetaId.ofFVar? x = some m' → m.index.toNat < m'.index.toNat

/-- Whether the value of a metavariable mentions another one. -/
def Needs (ms : MetaContext) (m m' : MetaId) : Prop :=
  ∃ v, ms.value? m = some v ∧ v.hasFVar m'.toFVar

namespace Forward

/-- Holes in values lie fewer values deep than there are metavariables. -/
theorem instantiateUpTo_isSome (hms : ms.Forward)
    (he : e.FVarsIn fun x => ∀ m, MetaId.ofFVar? x = some m → (ms.value? m).isSome →
      ms.metas.length ≤ m.index.toNat + depth) : (ms.instantiateUpTo depth e).isSome := by
  induction depth generalizing e with
  | zero =>
    refine Expr.bindFVars?_isSome_iff.mpr (he.mono fun x hx => ?_)
    cases hv : ms.valueOf? x with
    | none => rfl
    | some v =>
      obtain ⟨m, hm, hv⟩ := Option.bind_eq_some_iff.mp hv
      have hlt := lt_of_value? hv
      have hle := hx m hm (by rw [hv]; rfl)
      omega
  | succ depth ih =>
    refine Expr.bindFVars?_isSome_iff.mpr (he.mono fun x hx => ?_)
    cases hv : ms.valueOf? x with
    | none => rfl
    | some v =>
      obtain ⟨m, hm, hv⟩ := Option.bind_eq_some_iff.mp hv
      refine ih ((hms m v hv).mono fun y hy m' hm' _ => ?_)
      have hle := hx m hm (by rw [hv]; rfl)
      have hlt := hy m' hm'
      omega

theorem instantiate?_isSome (hms : ms.Forward) (e : Expr) : (ms.instantiate? e).isSome := by
  refine hms.instantiateUpTo_isSome ?_
  exact e.fvarsIn_of_forall fun x m _ _ => Nat.le_add_left _ _

/-- No metavariable needs itself. -/
theorem acyclic (hms : ms.Forward) (hlen : ms.metas.length ≤ 2 ^ 40) (m : MetaId) :
    ¬ Relation.TransGen ms.Needs m m := by
  have hstep : ∀ {m m'}, ms.Needs m m' → (ms.value? m').isSome →
      m.index.toNat < m'.index.toNat := by
    rintro m m' ⟨v, hv, hmem⟩ hm'
    obtain ⟨w, hw⟩ := Option.isSome_iff_exists.mp hm'
    have hlt := lt_of_value? hw
    exact Expr.fvarsIn_iff.mp (hms m v hv) _ hmem m' (ofFVar?_toFVar (by omega))
  have hpath : ∀ {m m'}, Relation.TransGen ms.Needs m m' → (ms.value? m').isSome →
      m.index.toNat < m'.index.toNat := by
    intro m m' h
    induction h with
    | single h => exact hstep h
    | tail _ h ih =>
      intro hm'
      obtain ⟨v, hv, -⟩ := id h
      exact Nat.lt_trans (ih (by rw [hv]; rfl)) (hstep h hm')
  intro h
  obtain ⟨m', hm', -⟩ := Relation.TransGen.head'_iff.mp h
  obtain ⟨v, hv, -⟩ := hm'
  exact Nat.lt_irrefl _ (hpath h (by rw [hv]; rfl))

end Forward

end MetaContext

end Pinpoint
