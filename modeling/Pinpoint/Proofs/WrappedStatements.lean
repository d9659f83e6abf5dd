/-
Statements recognised under metadata.

Metadata around a whole statement and inside its sides is looked through;
metadata around the relation, or around the relation with some of its
arguments, hides the statement.

* `Expr.statement?_eraseMData` — a term with a bare spine is recognised exactly
  if the term without metadata is, and as the same statement up to metadata;
* `Expr.statement?_of_not_bareSpine` — no other term is recognised;
* `Expr.statement?_through_metadata` — both for terms that differ in metadata
  only, and when the statement is the term again.
-/
import Pinpoint.Proofs.Statements

namespace Pinpoint

/-- The statement with the metadata of its parts removed. -/
def Statement.eraseMData (s : Statement) : Statement :=
  { s with
    carrier := s.carrier.eraseMData
    lhs := s.lhs.eraseMData
    rhs := s.rhs.eraseMData }

namespace Expr

/-- Whether no metadata stands, under the outer metadata of the term, around its
head or around the head with some of its arguments. -/
def bareSpine (e : Expr) : Bool :=
  match e.stripMData.appFn with
  | .mdata .. => false
  | _ => true

/-! ### Spines -/

theorem appFn_eraseMData {e : Expr} (he : ∀ m e', e.appFn ≠ .mdata m e') :
    e.eraseMData.appFn = e.appFn.eraseMData := by
  induction e with
  | app f a ihf _ => exact ihf he
  | mdata m e' _ => exact absurd rfl (he m e')
  | _ => rfl

theorem appArgs_eraseMData {e : Expr} (he : ∀ m e', e.appFn ≠ .mdata m e') :
    e.eraseMData.appArgs = e.appArgs.map eraseMData := by
  suffices h : ∀ rest, e.eraseMData.appArgsAux (rest.map eraseMData) =
      (e.appArgsAux rest).map eraseMData from h []
  induction e with
  | app f a ihf _ => exact fun rest => ihf he (a :: rest)
  | mdata m e' _ => exact absurd rfl (he m e')
  | _ => exact fun _ => rfl

/-! ### Recognition -/

/-- Metadata within the spine hides a statement. -/
theorem statement?_of_not_bareSpine {e : Expr} (he : ¬ e.bareSpine) : e.statement? = none := by
  unfold bareSpine at he
  unfold statement?
  cases hfn : e.stripMData.appFn <;> simp_all

/-- On a term with a bare spine, recognition and removal of metadata can be
exchanged. -/
theorem statement?_eraseMData {e : Expr} (he : e.bareSpine) :
    e.eraseMData.statement? = e.statement?.map Statement.eraseMData := by
  have hbare : ∀ m e', e.stripMData.appFn ≠ .mdata m e' := by
    intro m e' hfn
    simp [bareSpine, hfn] at he
  have hfn := appFn_eraseMData hbare
  have hargs := appArgs_eraseMData hbare
  rw [eraseMData_stripMData] at hfn hargs
  unfold statement?
  dsimp only
  rw [stripMData_eraseMData, hfn, hargs]
  cases hhead : e.stripMData.appFn with
  | mdata m e' => exact absurd hhead (hbare m e')
  | const n ls =>
    -- an equivalence takes two arguments, an equation three and one universe
    rcases e.stripMData.appArgs with _ | ⟨a, _ | ⟨b, _ | ⟨c, _ | ⟨d, rest⟩⟩⟩⟩
    case const.cons.cons.nil =>
      by_cases hn : n = Vocabulary.iff <;> simp [hn, eraseMData, Statement.eraseMData, prop]
    case const.cons.cons.cons.nil =>
      rcases ls with _ | ⟨l, _ | ⟨l', ls⟩⟩ <;> by_cases hn : n = Vocabulary.eq <;>
        simp [hn, eraseMData, Statement.eraseMData]
    all_goals rfl
  | _ => rfl

/-- A recognised statement is the term that it was read from, up to metadata,
exactly if an equivalence is written without universe arguments, as it is
declared; an equation is only recognised with the one that it is declared
with. -/
theorem eqModMData_toExpr_iff {e : Expr} {s : Statement} (hs : e.statement? = some s) :
    s.toExpr.eqModMData e ↔ ∀ ls, e.stripMData.appFn = .const Vocabulary.iff ls → ls = [] := by
  rw [eqModMData_iff, ← skeleton_stripMData e]
  rcases statement?_eq_some hs with ⟨hr, he⟩ | ⟨hr, -, -, ls, he⟩
  · rw [he]
    have hne : Vocabulary.eq ≠ Vocabulary.iff := by decide
    simp [Statement.toExpr, Statement.rebuild, hr, mkEq, appFn, hne]
  · rw [he]
    simp [Statement.toExpr, Statement.rebuild, hr, mkIff, appFn, skeleton, eq_comm]

/-- Terms that differ in metadata only, and have no metadata within their
spines, are recognised as the same statement up to metadata; with metadata
within the spine a term is not recognised.  A recognised statement is the term
again up to metadata if the relation has its declared universe arguments. -/
theorem statement?_through_metadata {e e' : Expr} (h : e.eraseMData = e'.eraseMData) :
    (e.bareSpine → e'.bareSpine →
      e.statement?.map Statement.eraseMData = e'.statement?.map Statement.eraseMData) ∧
    (¬ e.bareSpine → e.statement? = none) ∧
    ∀ s, e.statement? = some s →
      (s.toExpr.eqModMData e ↔
        ∀ ls, e.stripMData.appFn = .const Vocabulary.iff ls → ls = []) :=
  ⟨fun he he' => by rw [← statement?_eraseMData he, h, statement?_eraseMData he'],
    statement?_of_not_bareSpine, fun _ => eqModMData_toExpr_iff⟩

/-- Metadata around an equation and around its sides. -/
theorem statement?_through_metadata_around_sides :
    let zero : Expr := .const Vocabulary.natZero []
    let nat : Expr := .const Vocabulary.nat []
    let e : Expr := .mdata [] (.mkEq .one nat (.mdata [] zero) zero)
    let e' : Expr := .mkEq .one (.mdata [] nat) zero zero
    e.eraseMData = e'.eraseMData ∧ e.bareSpine ∧ e'.bareSpine ∧
      e.statement?.map Statement.eraseMData = e'.statement?.map Statement.eraseMData ∧
      ∃ s, e.statement? = some s ∧ s.toExpr.eqModMData e := by
  intro zero nat e e'
  have h := statement?_through_metadata (show e.eraseMData = e'.eraseMData from rfl)
  exact ⟨rfl, rfl, rfl, h.1 rfl rfl, _, rfl, (h.2.2 _ rfl).mpr fun ls hls =>
    absurd (const.inj hls).1 (by decide)⟩

/-- An equation with metadata around the relation and its carrier is not
recognised, and the same equation without the metadata is. -/
theorem statement?_of_wrapped_relation :
    let zero : Expr := .const Vocabulary.natZero []
    let nat : Expr := .const Vocabulary.nat []
    let e : Expr := .app (.app (.mdata [] (.app (.const Vocabulary.eq [.one]) nat)) zero) zero
    let e' : Expr := .mkEq .one nat zero zero
    e.eraseMData = e'.eraseMData ∧ e.statement? = none ∧
      e'.statement? = some ⟨.eq, .one, nat, zero, zero⟩ :=
  ⟨rfl, rfl, rfl⟩

end Expr

end Pinpoint
