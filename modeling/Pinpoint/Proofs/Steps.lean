/-
Positions as a lens.

Reading and writing treat metadata at different moments, but both go down one
step at a time: a step names a child, and a term with another child there is
the term with everything else as it was.  What holds of one step holds of a
path, by induction on the path.

* `subterm?_cons`, `replaceWith?_cons` — reading and writing, step by step;
* `replaceWith?_subterm?` — to put back what stands at a position changes
  nothing, not even the metadata;
* `subterm?_replaceWith?_of_apart`, `replaceWith?_swap` — positions that are
  not inside one another do not see each other;
* `replaceAt?_lens` — the laws together.
-/
import Pinpoint.Expr.Position

namespace Pinpoint

/-- How many binders a step crosses. -/
def Step.binders : Step → UInt32
  | .binderBody | .letBody => 1
  | _ => 0

namespace Path

/-- Neither of two positions is inside the other. -/
def Apart (p q : Path) : Prop := ¬ p <+: q ∧ ¬ q <+: p

theorem not_apart_nil (q : Path) : ¬ Apart [] q := fun h => h.1 List.nil_prefix

theorem Apart.symm {p q : Path} (h : Apart p q) : Apart q p := ⟨h.2, h.1⟩

theorem apart_cons_cons {s t : Step} {p q : Path} :
    Apart (s :: p) (t :: q) ↔ s ≠ t ∨ Apart p q := by
  simp only [Apart, List.cons_prefix_cons]
  grind

end Path

namespace Expr

/-! ### One step -/

/-- The part of a term that a step leads to. -/
def child? : Expr → Step → Option Expr
  | .mdata _ e, s => e.child? s
  | .app f _, .appFn => some f
  | .app _ a, .appArg => some a
  | .lam _ t _, .binderType => some t
  | .lam _ _ b, .binderBody => some b
  | .pi _ t _, .binderType => some t
  | .pi _ _ b, .binderBody => some b
  | .letE t _ _, .letType => some t
  | .letE _ v _, .letValue => some v
  | .letE _ _ b, .letBody => some b
  | _, _ => none

/-- The term with another part where a step leads to. -/
def withChild : Expr → Step → Expr → Expr
  | .mdata m e, s, c => .mdata m (e.withChild s c)
  | .app _ a, .appFn, c => .app c a
  | .app f _, .appArg, c => .app f c
  | .lam i _ b, .binderType, c => .lam i c b
  | .lam i t _, .binderBody, c => .lam i t c
  | .pi i _ b, .binderType, c => .pi i c b
  | .pi i t _, .binderBody, c => .pi i t c
  | .letE _ v b, .letType, c => .letE c v b
  | .letE t _ b, .letValue, c => .letE t c b
  | .letE t v _, .letBody, c => .letE t v c
  | e, _, _ => e

/-- Another term with the metadata around a term. -/
def withRoot : Expr → Expr → Expr
  | .mdata m e, c => .mdata m (e.withRoot c)
  | _, c => c

theorem withChild_child? {e c : Expr} {s : Step} (h : e.child? s = some c) :
    e.withChild s c = e := by
  induction e with
  | mdata m e ih => rw [withChild, ih h]
  | _ => cases s <;> simp_all [child?, withChild]

theorem child?_withChild_self {e c : Expr} {s : Step} (h : e.child? s = some c) (c' : Expr) :
    (e.withChild s c').child? s = some c' := by
  induction e with
  | mdata m e ih => exact ih h
  | _ => cases s <;> simp_all [child?, withChild]

theorem child?_withChild_of_ne {s t : Step} (hst : s ≠ t) (e c : Expr) :
    (e.withChild s c).child? t = e.child? t := by
  induction e with
  | mdata m e ih => exact ih
  | _ => cases s <;> cases t <;> first | exact absurd rfl hst | rfl

theorem withChild_withChild_self (e : Expr) (s : Step) (c c' : Expr) :
    (e.withChild s c).withChild s c' = e.withChild s c' := by
  induction e with
  | mdata m e ih => exact congrArg (Expr.mdata m) ih
  | _ => cases s <;> rfl

theorem withChild_comm {s t : Step} (hst : s ≠ t) (e c c' : Expr) :
    (e.withChild s c).withChild t c' = (e.withChild t c').withChild s c := by
  induction e with
  | mdata m e ih => exact congrArg (Expr.mdata m) ih
  | _ => cases s <;> cases t <;> first | exact absurd rfl hst | rfl

theorem stripMData_withRoot (e c : Expr) : (e.withRoot c).stripMData = c.stripMData := by
  induction e with
  | mdata m e ih => exact ih
  | _ => rfl

theorem withRoot_stripMData (e : Expr) : e.withRoot e.stripMData = e := by
  induction e with
  | mdata m e ih => exact congrArg (Expr.mdata m) ih
  | _ => rfl

/-! ### Paths, step by step -/

section
variable {make make' : UInt32 → Expr} {e s : Expr} {p q : Path} {d : UInt32}

theorem subterm?_cons (e : Expr) (s : Step) (p : Path) :
    e.subterm? (s :: p) = (e.child? s).bind (·.subterm? p) := by
  induction e with
  | mdata m e ih => rw [subterm?_mdata, ih, child?]
  | _ => cases s <;> rfl

theorem replaceWith?_nil (make : UInt32 → Expr) (e : Expr) (d : UInt32) :
    replaceWith? make e [] d = some (e.withRoot (make d)) := by
  induction e with
  | mdata m e ih => rw [replaceWith?, ih]; rfl
  | _ => rfl

theorem replaceWith?_cons (make : UInt32 → Expr) (e : Expr) (s : Step) (p : Path) (d : UInt32) :
    replaceWith? make e (s :: p) d =
      (e.child? s).bind fun c => (replaceWith? make c p (d + s.binders)).map (e.withChild s) := by
  induction e with
  | mdata m e ih =>
    rw [replaceWith?, ih, child?]
    cases e.child? s with
    | none => rfl
    | some c => rw [Option.bind_some, Option.bind_some, Option.map_map]; rfl
  | _ => cases s <;> simp [replaceWith?, child?, Step.binders] <;> rfl

/-- A position can be written exactly if it can be read. -/
theorem isSome_replaceWith? (make : UInt32 → Expr) (e : Expr) (p : Path) (d : UInt32) :
    (replaceWith? make e p d).isSome = (e.subterm? p).isSome := by
  induction p generalizing e d with
  | nil => rw [replaceWith?_nil, subterm?_nil]; rfl
  | cons s p ih =>
    rw [replaceWith?_cons, subterm?_cons]
    cases e.child? s with
    | none => rfl
    | some c => rw [Option.bind_some, Option.bind_some, Option.isSome_map, ih]

/-- What writing below the root does. -/
theorem replaceWith?_cons_eq_some {step : Step} {e' : Expr} :
    replaceWith? make e (step :: p) d = some e' ↔
      ∃ c, e.child? step = some c ∧ ∃ part,
        replaceWith? make c p (d + step.binders) = some part ∧ e.withChild step part = e' := by
  simp only [replaceWith?_cons, Option.bind_eq_some_iff, Option.map_eq_some_iff]

/-- What was put at a position is found there. -/
theorem subterm?_of_replaceWith? {new e' : Expr}
    (h : replaceWith? (fun _ => new) e p d = some e') :
    e'.subterm? p = some new.stripMData := by
  induction p generalizing e e' d with
  | nil =>
    rw [replaceWith?_nil] at h
    rw [← Option.some.inj h, subterm?_nil, stripMData_withRoot]
  | cons step p ih =>
    obtain ⟨c, hc, part, hpart, rfl⟩ := replaceWith?_cons_eq_some.mp h
    rw [subterm?_cons, child?_withChild_self hc, Option.bind_some, ih hpart]

/-- To put back what stands at a position changes nothing: the metadata that
reading takes off is what writing leaves around the position. -/
theorem replaceWith?_subterm? (h : e.subterm? p = some s) :
    replaceWith? (fun _ => s) e p d = some e := by
  induction p generalizing e d with
  | nil =>
    rw [subterm?_nil] at h
    rw [replaceWith?_nil, ← Option.some.inj h, withRoot_stripMData]
  | cons step p ih =>
    rw [subterm?_cons] at h
    obtain ⟨c, hc, hp⟩ := Option.bind_eq_some_iff.mp h
    exact replaceWith?_cons_eq_some.mpr ⟨c, hc, c, ih hp, withChild_child? hc⟩

/-- Writing at a position is not seen from a position apart from it. -/
theorem subterm?_replaceWith?_of_apart {e' : Expr} (hpq : Path.Apart p q)
    (h : replaceWith? make e p d = some e') : e'.subterm? q = e.subterm? q := by
  induction p generalizing e e' d q with
  | nil => exact absurd hpq (Path.not_apart_nil q)
  | cons step p ih =>
    obtain ⟨c, hc, part, hpart, rfl⟩ := replaceWith?_cons_eq_some.mp h
    rcases q with _ | ⟨step', q⟩
    · exact absurd hpq.symm (Path.not_apart_nil _)
    rw [subterm?_cons, subterm?_cons]
    by_cases hstep : step = step'
    · -- both positions are in the same part, and apart there
      subst hstep
      have hpq' : Path.Apart p q := by simpa using Path.apart_cons_cons.mp hpq
      rw [child?_withChild_self hc, hc, Option.bind_some, Option.bind_some, ih hpq' hpart]
    · rw [child?_withChild_of_ne hstep]

/-- What is written at one position and then at one apart from it can be
written in the other order. -/
theorem replaceWith?_swap {e₁ e₂ : Expr} (hpq : Path.Apart p q)
    (h₁ : replaceWith? make e p d = some e₁) (h₂ : replaceWith? make' e₁ q d = some e₂) :
    ∃ e', replaceWith? make' e q d = some e' ∧ replaceWith? make e' p d = some e₂ := by
  induction p generalizing e e₁ e₂ d q with
  | nil => exact absurd hpq (Path.not_apart_nil q)
  | cons step p ih =>
    rcases q with _ | ⟨step', q⟩
    · exact absurd hpq.symm (Path.not_apart_nil _)
    obtain ⟨c, hc, part, hpart, rfl⟩ := replaceWith?_cons_eq_some.mp h₁
    obtain ⟨c', hc', part', hpart', rfl⟩ := replaceWith?_cons_eq_some.mp h₂
    by_cases hstep : step = step'
    · -- both positions are in the part `c`
      subst hstep
      have hpq' : Path.Apart p q := by simpa using Path.apart_cons_cons.mp hpq
      rw [child?_withChild_self hc, Option.some_inj] at hc'
      subst hc'
      obtain ⟨c₂, hq, hp⟩ := ih hpq' hpart hpart'
      refine ⟨e.withChild step c₂, replaceWith?_cons_eq_some.mpr ⟨c, hc, c₂, hq, rfl⟩, ?_⟩
      refine replaceWith?_cons_eq_some.mpr ⟨c₂, child?_withChild_self hc _, part', hp, ?_⟩
      rw [withChild_withChild_self, withChild_withChild_self]
    · -- they are in the parts `c` and `c'`, side by side
      rw [child?_withChild_of_ne hstep] at hc'
      refine ⟨e.withChild step' part', replaceWith?_cons_eq_some.mpr ⟨c', hc', _, hpart', rfl⟩, ?_⟩
      refine replaceWith?_cons_eq_some.mpr ⟨c, ?_, part, hpart, ?_⟩
      · rw [child?_withChild_of_ne (Ne.symm hstep), hc]
      · exact withChild_comm (Ne.symm hstep) e part' part

/-- Writing at two positions that are apart can be done in either order. -/
theorem replaceWith?_comm (hpq : Path.Apart p q) :
    (replaceWith? make e p d).bind (replaceWith? make' · q d) =
      (replaceWith? make' e q d).bind (replaceWith? make · p d) := by
  ext e₂
  simp only [Option.bind_eq_some_iff]
  constructor
  · rintro ⟨e₁, h₁, h₂⟩
    exact replaceWith?_swap hpq h₁ h₂
  · rintro ⟨e₁, h₁, h₂⟩
    exact replaceWith?_swap hpq.symm h₁ h₂

end

/-- Positions are a lawful lens.  What is written at a position is read there,
to write what is read changes nothing, and positions apart from each other do
not interfere. -/
theorem replaceAt?_lens {e s : Expr} {p : Path} (h : e.subterm? p = some s) (r : Expr) :
    (∃ e', e.replaceAt? p r = some e' ∧ e'.subterm? p = some r.stripMData ∧
      ∀ q, Path.Apart p q → e'.subterm? q = e.subterm? q) ∧
    e.replaceAt? p s = some e ∧
    ∀ q r', Path.Apart p q →
      (e.replaceAt? p r).bind (·.replaceAt? q r') =
        (e.replaceAt? q r').bind (·.replaceAt? p r) := by
  have hsome : (e.replaceAt? p r).isSome := by
    rw [replaceAt?, isSome_replaceWith?, h]
    rfl
  obtain ⟨e', he'⟩ := Option.isSome_iff_exists.mp hsome
  refine ⟨⟨e', he', subterm?_of_replaceWith? he', ?_⟩, replaceWith?_subterm? h, ?_⟩
  · intro q hpq
    exact subterm?_replaceWith?_of_apart hpq he'
  · intro q r' hpq
    exact replaceWith?_comm hpq

/-- A position under a binder and inside metadata, and one beside it. -/
theorem replaceAt?_lens_binderBody :
    let e : Expr := .mdata [] (.lam .default (.sort .zero)
      (.app (.mdata [] (.bvar 1)) (.mdata [] (.bvar 0))))
    let p : Path := [.binderBody, .appArg]
    let q : Path := [.binderBody, .appFn]
    let r : Expr := .mdata [] (.fvar ⟨7⟩)
    e.subterm? p = some (.bvar 0) ∧ Path.Apart p q ∧
    (∃ e', e.replaceAt? p r = some e' ∧ e'.subterm? p = some (.fvar ⟨7⟩) ∧
      e'.subterm? q = some (.bvar 1)) ∧
    e.replaceAt? p (.bvar 0) = some e ∧
    (e.replaceAt? p r).bind (·.replaceAt? q (.fvar ⟨8⟩)) =
      (e.replaceAt? q (.fvar ⟨8⟩)).bind (·.replaceAt? p r) := by
  intro e p q r
  have hs : e.subterm? p = some (.bvar 0) := by decide
  have hpq : Path.Apart p q := ⟨by decide, by decide⟩
  obtain ⟨⟨e', he', hp, hq⟩, hself, hcomm⟩ := replaceAt?_lens hs r
  exact ⟨hs, hpq, ⟨e', he', hp, hq q hpq⟩, hself, hcomm q _ hpq⟩

end Expr

end Pinpoint
