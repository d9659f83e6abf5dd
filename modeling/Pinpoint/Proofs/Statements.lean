/-
Statements taken apart and put together.

* `Expr.statement?_eq_some` — what `statement?` recognises;
* `Statement.instantiate_withSide` — a statement one side of which is the
  variable of a binder, with that variable instantiated;
* `Statement.skeleton_withSide_iff` — when the result is, up to metadata, the
  term that the statement was read from.
-/
import Pinpoint.Proofs.Positions
import Pinpoint.Rewrite.Scope

namespace Pinpoint

/-- What `statement?` recognises: an equation at its universe, or an
equivalence, whatever universe arguments it is written with. -/
theorem Expr.statement?_eq_some {e : Expr} {s : Statement} (h : e.statement? = some s) :
    (s.relation = .eq ∧ e.stripMData = s.toExpr) ∨
      (s.relation = .iff ∧ s.level = .one ∧ s.carrier = .prop ∧
        ∃ ls, e.stripMData = .mkApp (.const Vocabulary.iff ls) [s.lhs, s.rhs]) := by
  have hspine := mkApp_appFn_appArgs e.stripMData
  unfold statement? at h
  dsimp only at h
  split at h
  · rename_i n ls α a b hfn hargs
    rw [hfn, hargs] at hspine
    by_cases hn : n = Vocabulary.eq
    · rw [if_pos hn] at h
      split at h
      · obtain rfl := Option.some.inj h
        exact .inl ⟨rfl, by rw [← hspine, hn]; rfl⟩
      · cases h
    · rw [if_neg hn] at h
      cases h
  · rename_i n ls a b hfn hargs
    rw [hfn, hargs] at hspine
    by_cases hn : n = Vocabulary.iff
    · rw [if_pos hn] at h
      obtain rfl := Option.some.inj h
      exact .inr ⟨rfl, rfl, rfl, ls, by rw [← hspine, hn]⟩
    · rw [if_neg hn] at h
      cases h
  · cases h

@[simp] theorem Expr.closedUnder_prop (d : UInt32) : Expr.prop.closedUnder d = true := rfl

namespace Statement

/-- The side of a statement. -/
def side (s : Statement) : Side → Expr
  | .lhs => s.lhs
  | .rhs => s.rhs

/-- The side of a statement that is not the given one. -/
def otherSide (s : Statement) : Side → Expr
  | .lhs => s.rhs
  | .rhs => s.lhs

/-- The statement with a new term for a side. -/
def withSide (s : Statement) (e : Expr) : Side → Expr
  | .lhs => s.rebuild e s.rhs
  | .rhs => s.rebuild s.lhs e

/-- The statement with a variable of its parts instantiated. -/
def instantiate (s : Statement) (v : Expr) : Statement :=
  { s with
    carrier := s.carrier.instantiate v
    lhs := s.lhs.instantiate v
    rhs := s.rhs.instantiate v }

theorem instantiate_rebuild (s : Statement) (a b v : Expr) :
    (s.rebuild a b).instantiate v =
      (s.instantiate v).rebuild (a.instantiate v) (b.instantiate v) := by
  simp only [rebuild, instantiate]
  cases s.relation <;> rfl

/-- A statement one side of which is the variable of a binder: that side
becomes what the variable is instantiated with, and the rest is
instantiated. -/
theorem instantiate_withSide (s : Statement) (v : Expr) (side : Side) :
    (s.withSide (.bvar 0) side).instantiate v = (s.instantiate v).withSide v side := by
  have hv : Expr.instantiate (.bvar 0) v = v := Expr.lift_zero v
  cases side <;> rw [withSide, instantiate_rebuild, hv] <;> rfl

theorem instantiate_eq_self {s : Statement} {v : Expr} {side : Side}
    (hc : s.carrier.closedUnder 0) (ho : (s.otherSide side).closedUnder 0) (e : Expr) :
    (s.instantiate v).withSide e side = s.withSide e side := by
  cases side <;> unfold withSide <;> simp only [instantiate, otherSide] at ho ⊢ <;>
    rw [Expr.instantiate_eq_self hc, Expr.instantiate_eq_self ho] <;> rfl

theorem withSide_side (s : Statement) (side : Side) : s.withSide (s.side side) side = s.toExpr := by
  cases side <;> rfl

/-- What a side is put into is the rest of the statement. -/
theorem withSide_eq {s s' : Statement} {side : Side} (hrel : s'.relation = s.relation)
    (hlevel : s'.level = s.level) (hcarrier : s'.carrier = s.carrier)
    (hother : s'.otherSide side = s.otherSide side) (e : Expr) :
    s'.withSide e side = s.withSide e side := by
  cases side <;> simp only [otherSide] at hother <;>
    simp only [withSide, rebuild, hrel, hlevel, hcarrier, hother]

/-- A statement with a new side is read as the statement with that side. -/
theorem statement?_withSide {s : Statement} {target : Expr} (hs : target.statement? = some s)
    (e : Expr) (side : Side) :
    ∃ s', (s.withSide e side).statement? = some s' ∧ s'.relation = s.relation ∧
      s'.level = s.level ∧ s'.carrier = s.carrier ∧ s'.otherSide side = s.otherSide side ∧
      s'.side side = e := by
  rcases Expr.statement?_eq_some hs with ⟨hr, -⟩ | ⟨hr, hl, hc, -⟩
  · cases side <;> simp only [withSide, rebuild, hr]
    · exact ⟨_, rfl, rfl, rfl, rfl, rfl, rfl⟩
    · exact ⟨_, rfl, rfl, rfl, rfl, rfl, rfl⟩
  · cases side <;> simp only [withSide, rebuild, hr, hl, hc]
    · exact ⟨_, rfl, rfl, rfl, rfl, rfl, rfl⟩
    · exact ⟨_, rfl, rfl, rfl, rfl, rfl, rfl⟩

/-- Whether the parts around a side are closed and the statement is, up to
metadata, the term that it was read from. -/
def keeps (s : Statement) (target : Expr) (side : Side) : Bool :=
  s.carrier.closedUnder 0 && (s.otherSide side).closedUnder 0 && s.toExpr.eqModMData target

/-- A statement with a new side, and the rest instantiated, is up to metadata
the term that the statement was read from exactly if the side is the old one
and the rest is kept. -/
theorem skeleton_withSide_iff {s : Statement} {target v : Expr} {side : Side}
    (hs : target.statement? = some s) (hv : ∀ i, v.skeleton ≠ .bvar i) :
    ((s.instantiate v).withSide v side).skeleton = target.skeleton ↔
      v.skeleton = (s.side side).skeleton ∧ s.keeps target side := by
  have hinst := Expr.skeleton_instantiate_eq_iff hv
  rw [keeps, Bool.and_eq_true, Bool.and_eq_true, Expr.eqModMData_iff, ← hinst s.carrier,
    ← hinst (s.otherSide side), ← Expr.skeleton_stripMData target]
  rcases Expr.statement?_eq_some hs with ⟨hr, ht⟩ | ⟨hr, -, hc, ls, ht⟩
  · rw [ht]
    cases side <;>
      simp only [withSide, rebuild, instantiate, toExpr, side, otherSide, hr, Expr.mkEq,
        Expr.mkApp_cons, Expr.mkApp_nil, Expr.skeleton, Expr.app.injEq] <;>
      grind only
  · rw [ht]
    cases side <;>
      simp only [withSide, rebuild, instantiate, toExpr, side, otherSide, hr, hc, Expr.mkIff,
        Expr.mkApp_cons, Expr.mkApp_nil, Expr.skeleton, Expr.app.injEq, Expr.const.injEq,
        hinst, Expr.closedUnder_prop] <;>
      grind only

end Statement

end Pinpoint
