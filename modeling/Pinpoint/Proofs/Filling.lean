/-
Terms with their holes filled.

Where values have no loose variables and mention later metavariables only, a metavariable
stands for one term, the one that is left when all holes are filled, and filling the holes of
a term puts these in.  They are put in under binders as they stand, which is right because
they have no loose variables.

* `mapFVars_instantiate` — replacing free variables and opening a binder;
* `Forward.instantiate?_eq_mapFVars` — a term with its holes filled;
* `Forward.instantiate?_fvar` — a metavariable is filled as its value is;
* `Forward.filling_normal_form` — all of these together.
-/
import Pinpoint.Proofs.Metavariables
import Pinpoint.Proofs.Positions

namespace Pinpoint

namespace Expr

variable {f f' : UInt32 → UInt32 → Expr} {g : FVarId → Expr} {e v : Expr} {d : UInt32}

/-- The term with its free variables replaced. -/
def mapFVars (g : FVarId → Expr) (e : Expr) : Expr :=
  mapVars (fun _ i => .bvar i) (fun _ x => g x) 0 e

/-- Free variables are replaced whatever the number of binders that a traversal begins
with. -/
theorem mapVars_eq_mapFVars (d : UInt32) (e : Expr) :
    mapVars (fun _ i => .bvar i) (fun _ x => g x) d e = e.mapFVars g := by
  have h : e.FVarsIn fun x => some (g x) = some (g x) := fvarsIn_of_forall (fun _ => rfl) e
  exact Option.some.inj ((bindFVars?_eq_mapVars h d).symm.trans (bindFVars?_eq_mapVars h 0))

section
variable (i : BinderInfo) (t b : Expr)

theorem mapFVars_lam : (lam i t b).mapFVars g = .lam i (t.mapFVars g) (b.mapFVars g) :=
  congrArg (lam i _) (mapVars_eq_mapFVars 1 b)

theorem mapFVars_pi : (pi i t b).mapFVars g = .pi i (t.mapFVars g) (b.mapFVars g) :=
  congrArg (pi i _) (mapVars_eq_mapFVars 1 b)

theorem mapFVars_letE :
    (letE t v b).mapFVars g = .letE (t.mapFVars g) (v.mapFVars g) (b.mapFVars g) :=
  congrArg (letE _ _) (mapVars_eq_mapFVars 1 b)

end

/-- Closed terms are put in for free variables before or after bound variables are replaced,
if they are also put in to what replaces these. -/
theorem mapFVars_mapVars (hf : ∀ d i, (f d i).mapFVars g = f' d i)
    (hkeep : ∀ d i, i < d → f' d i = .bvar i) (hg : ∀ x, (g x).Scoped 0)
    (hdepth : d.toNat + (e.mapFVars g).nesting < 2 ^ 32) :
    (mapVars f (fun _ x => .fvar x) d e).mapFVars g =
      mapVars f' (fun _ x => .fvar x) d (e.mapFVars g) := by
  induction e generalizing d with
  | bvar i => exact hf d i
  | fvar x => exact ((hg x).mapVars_eq_self hkeep hdepth).symm
  | app h a ihh iha =>
    have hdepth : d.toNat + max (h.mapFVars g).nesting (a.mapFVars g).nesting < 2 ^ 32 := hdepth
    exact congrArg₂ app (ihh (by omega)) (iha (by omega))
  | lam _ _ _ iht ihb =>
    simp only [mapVars, mapFVars_lam, nesting] at hdepth ⊢
    have hsucc := toNat_index_succ (d := d) (by omega)
    rw [iht (by omega), ihb (by omega)]
  | pi _ _ _ iht ihb =>
    simp only [mapVars, mapFVars_pi, nesting] at hdepth ⊢
    have hsucc := toNat_index_succ (d := d) (by omega)
    rw [iht (by omega), ihb (by omega)]
  | letE _ _ _ iht ihv ihb =>
    simp only [mapVars, mapFVars_letE, nesting] at hdepth ⊢
    have hsucc := toNat_index_succ (d := d) (by omega)
    rw [iht (by omega), ihv (by omega), ihb (by omega)]
  | mdata _ _ ih => exact congrArg (mdata _) (ih hdepth)
  | _ => rfl

section
variable (hg : ∀ x, (g x).Scoped 0) (hv : (v.mapFVars g).nesting < 2 ^ 32)
include hg hv

/-- A term is raised before or after its free variables are replaced. -/
theorem mapFVars_lift (amount : UInt32) :
    (v.lift amount).mapFVars g = (v.mapFVars g).lift amount := by
  refine mapFVars_mapVars (fun d i => ?_) (fun d i hi => ?_) hg (by simpa using hv)
  · split <;> rfl
  · exact if_neg fun hle => absurd hle.1 (UInt32.not_le.mpr hi)

/-- A binder is opened before or after free variables are replaced. -/
theorem mapFVars_instantiate (he : (e.mapFVars g).nesting < 2 ^ 32) :
    (e.instantiate v).mapFVars g = (e.mapFVars g).instantiate (v.mapFVars g) := by
  rw [instantiate_eq_mapVars, instantiate_eq_mapVars]
  refine mapFVars_mapVars (fun d i => ?_) (fun d i => instVar_of_lt) hg (by simpa using he)
  unfold instVar
  split
  · exact mapFVars_lift hg hv d
  · split <;> rfl

end

/-- Whatever else can be replaced, what is replaced stays the same. -/
theorem bindFVars?_mono {p q : FVarId → Option Expr} (hpq : ∀ x v, p x = some v → q x = some v)
    {e' : Expr} (h : e.bindFVars? p = some e') : e.bindFVars? q = some e' := by
  obtain ⟨hfound, rfl⟩ := bindFVars?_eq_some_iff.mp h
  refine bindFVars?_eq_mapVars (hfound.mono fun x hx => ?_) 0
  obtain ⟨v, hv⟩ := Option.isSome_iff_exists.mp hx
  rw [hpq x v hv, hv, Option.getD_some]

end Expr

namespace MetaContext

open Pinpoint.Expr

variable {ms : MetaContext} {depth : Nat} {body e e' v : Expr} {x : FVarId}

/-! ### The depth of values -/

/-- What is filled is filled the same way if values may lie one deeper. -/
theorem instantiateUpTo_succ (h : ms.instantiateUpTo depth e = some e') :
    ms.instantiateUpTo (depth + 1) e = some e' := by
  induction depth generalizing e e' with
  | zero =>
    refine bindFVars?_mono (fun x v hv => ?_) h
    split at hv
    · cases hv
    · rename_i hnone
      rw [Option.not_isSome_iff_eq_none.mp hnone]
      exact hv
  | succ depth ih =>
    refine bindFVars?_mono (fun x v hv => ?_) h
    split at hv
    · exact ih hv
    · exact hv

namespace Forward

/-- A metavariable is filled as its value is. -/
theorem instantiate?_fvar (hms : ms.Forward) (h : ms.valueOf? x = some v) :
    ms.instantiate? (.fvar x) = ms.instantiate? v := by
  obtain ⟨r, hr⟩ := Option.isSome_iff_exists.mp (hms.instantiate?_isSome (.fvar x))
  obtain ⟨m, hm, -⟩ := mem_of_valueOf? h
  obtain ⟨n, hn⟩ : ∃ n, ms.metas.length = n + 1 :=
    Nat.exists_eq_add_one.mpr (List.length_pos_of_mem hm)
  rw [hr]
  rw [instantiate?, hn, instantiateUpTo_fvar h] at hr
  rw [instantiate?, hn, instantiateUpTo_succ hr]

end Forward

/-- What is put in for a free variable when holes are filled. -/
def filled (ms : MetaContext) (x : FVarId) : Expr := (ms.instantiate? (.fvar x)).getD (.fvar x)

theorem instantiate?_eq_bindFVars? (ms : MetaContext) (e : Expr) :
    ms.instantiate? e = e.bindFVars? fun x => ms.instantiate? (.fvar x) := by
  unfold instantiate?
  cases ms.metas.length <;> rfl

section
variable (hms : ms.Forward)
include hms

/-- Filling the holes of a term puts in one term for each free variable. -/
theorem Forward.instantiate?_eq_mapFVars (e : Expr) :
    ms.instantiate? e = some (e.mapFVars ms.filled) := by
  rw [instantiate?_eq_bindFVars?]
  refine bindFVars?_eq_mapVars (fvarsIn_of_forall (fun x => ?_) e) 0
  obtain ⟨r, hr⟩ := Option.isSome_iff_exists.mp (hms.instantiate?_isSome (.fvar x))
  rw [filled, hr]
  rfl

variable (hclosed : ∀ m ∈ ms.metas, ∀ v, m.value = some v → v.Scoped 0)
include hclosed

theorem Forward.scoped_filled (x : FVarId) : (ms.filled x).Scoped 0 := by
  obtain ⟨r, hr⟩ := Option.isSome_iff_exists.mp (hms.instantiate?_isSome (.fvar x))
  rw [filled, hr]
  exact scoped_instantiateUpTo hclosed hr trivial

/-- The holes of an opened binder are filled as those of its body and of the term that it is
opened with. -/
theorem Forward.instantiate?_instantiate {a b : Expr} (hb : ms.instantiate? body = some b)
    (ha : ms.instantiate? v = some a) (hbn : b.nesting < 2 ^ 32) (han : a.nesting < 2 ^ 32) :
    ms.instantiate? (body.instantiate v) = some (b.instantiate a) := by
  rw [hms.instantiate?_eq_mapFVars] at hb ha ⊢
  obtain rfl := Option.some.inj hb
  obtain rfl := Option.some.inj ha
  rw [mapFVars_instantiate (hms.scoped_filled hclosed) han hbn]

/-- Filling holes gives a normal form.  It ends, nothing that has a value is left, and to
fill the holes once more changes nothing, nor does it change a term without holes.  A
metavariable becomes what its value becomes, and it makes no difference whether holes are
filled before a binder is opened or afterwards. -/
theorem Forward.filling_normal_form :
    (∀ e, ∃ r, ms.instantiate? e = some r ∧ (∀ x, r.hasFVar x → ms.valueOf? x = none) ∧
      ms.instantiate? r = some r) ∧
      (∀ e, (∀ x, e.hasFVar x → ms.valueOf? x = none) → ms.instantiate? e = some e) ∧
      (∀ x v, ms.valueOf? x = some v → ms.instantiate? (.fvar x) = ms.instantiate? v) ∧
      ∀ body v b a, ms.instantiate? body = some b → ms.instantiate? v = some a →
        b.nesting < 2 ^ 32 → a.nesting < 2 ^ 32 →
          ms.instantiate? (body.instantiate v) = some (b.instantiate a) := by
  have hself : ∀ e : Expr, (∀ x, e.hasFVar x → ms.valueOf? x = none) → ms.instantiate? e = some e :=
    fun e he => instantiateUpTo_eq_self (fvarsIn_iff.mpr he)
  refine ⟨fun e => ?_, hself, fun x v => hms.instantiate?_fvar,
    fun body v b a => hms.instantiate?_instantiate hclosed⟩
  obtain ⟨r, hr⟩ := Option.isSome_iff_exists.mp (hms.instantiate?_isSome e)
  have hnone := fvarsIn_iff.mp (fvarsIn_instantiate? hr)
  exact ⟨r, hr, hnone, hself r hnone⟩

end

namespace Filled

/-- Three metavariables: the first one has a value that mentions the two others, the second
one is a function, and the third one is a hole. -/
def holes : MetaContext :=
  ⟨[⟨.prop, some (.app (MetaId.toExpr ⟨1⟩) (MetaId.toExpr ⟨2⟩))⟩,
    ⟨.prop, some (.lam .default .prop (.bvar 0))⟩, ⟨.prop, none⟩]⟩

/-- A term with the first metavariable under a binder of its own, next to the variable of the
binder that is opened. -/
def host : Expr := .pi .default .prop (.app (MetaId.toExpr ⟨0⟩) (.bvar 1))

theorem forward_holes : holes.Forward := by
  intro m v hv
  have hlt : m.index.toNat < 3 := lt_of_value? hv
  have hcases : m.index.toNat = 0 ∨ m.index.toNat = 1 ∨ m.index.toNat = 2 := by omega
  have hv : (holes.metas[m.index.toNat]?).bind (·.value) = some v := hv
  rcases hcases with h | h | h <;> rw [h] at hv ⊢
  · obtain rfl := Option.some.inj hv
    constructor <;>
    · intro m' hm'
      obtain rfl := Option.some.inj hm'
      decide
  · obtain rfl := Option.some.inj hv
    exact ⟨trivial, trivial⟩
  · cases hv

end Filled

open Filled in
/-- A binder that is opened with the second metavariable. -/
theorem Forward.filling_normal_form_function :
    (∃ r, holes.instantiate? host = some r ∧ holes.instantiate? r = some r) ∧
      holes.instantiate? (host.instantiate (MetaId.toExpr ⟨1⟩)) =
        some (.pi .default .prop (.app
          (.app (.lam .default .prop (.bvar 0)) (MetaId.toExpr ⟨2⟩))
          (.lam .default .prop (.bvar 0)))) := by
  have hclosed : ∀ m ∈ holes.metas, ∀ v, m.value = some v → v.Scoped 0 := by
    simp [holes, MetaId.toExpr, Expr.Scoped, Expr.prop]
  obtain ⟨hends, -, -, hopen⟩ := forward_holes.filling_normal_form hclosed
  obtain ⟨r, hr, -, hself⟩ := hends host
  exact ⟨⟨r, hr, hself⟩, hopen host (MetaId.toExpr ⟨1⟩) _ _ rfl rfl (by decide) (by decide)⟩

end MetaContext

end Pinpoint
