/-
The constants that every problem starts from: equality with its casts and
congruence, equivalence of propositions, numbers, texts and the operators.
-/
import Pinpoint.Expr.Statement
import Pinpoint.Typing.Catalogue

namespace Pinpoint.Prelude

/-! ### Abbreviations for the types below -/

/-- The universe parameter `u`. -/
def u : Name := .simple "u"
/-- The universe parameter `v`. -/
def v : Name := .simple "v"

/-- A bound variable. -/
def var (i : UInt32) : Expr := .bvar i

/-- A constant without universe parameters and without a value. -/
def postulate (name : Name) (type : Expr) : Constant := ⟨name, [], type, none⟩

/-- A constant with the universe parameter `u` and without a value. -/
def postulateAt (name : Name) (type : Expr) : Constant := ⟨name, [u], type, none⟩

/-- An implicit argument of type `Sort u`. -/
def overSort (body : Expr) : Expr := .pi .implicit (.sort (.param u)) body

/-- An implicit proposition. -/
def overProp (body : Expr) : Expr := .pi .implicit .prop body

/-- `a = b` in the type `α : Sort u`. -/
def eqAt (α a b : Expr) : Expr := .mkEq (.param u) α a b

/-- `α = β` between types in `Sort u`. -/
def sortEq (α β : Expr) : Expr := .mkEq (.succ (.param u)) (.sort (.param u)) α β

/-! ### The constants -/

/-- Equality, its proofs, the casts along it, and congruence. -/
def equality : List Constant := [
  postulateAt Vocabulary.eq
    (overSort (.pi .default (var 0) (.pi .default (var 1) .prop))),
  postulateAt Vocabulary.eqRefl
    (overSort (.pi .default (var 0) (eqAt (var 1) (var 0) (var 0)))),
  postulateAt Vocabulary.eqSymm
    (overSort (.pi .implicit (var 0) (.pi .implicit (var 1)
      (.pi .default (eqAt (var 2) (var 1) (var 0)) (eqAt (var 3) (var 1) (var 2)))))),
  postulateAt Vocabulary.eqMpr
    (overSort (overSort
      (.pi .default (sortEq (var 1) (var 0)) (.pi .default (var 1) (var 3))))),
  postulateAt Vocabulary.eqMp
    (overSort (overSort
      (.pi .default (sortEq (var 1) (var 0)) (.pi .default (var 2) (var 2))))),
  ⟨Vocabulary.congrArg, [u, v],
    overSort (.pi .implicit (.sort (.param v)) (.pi .implicit (var 1) (.pi .implicit (var 2)
      (.pi .default (.arrow (var 3) (var 2))
        (.pi .default (eqAt (var 4) (var 2) (var 1))
          (.mkEq (.param v) (var 4) (.app (var 1) (var 3)) (.app (var 1) (var 2)))))))),
    none⟩]

/-- Equivalence, its proofs, and the equality of equivalent propositions. -/
def equivalence : List Constant := [
  postulate Vocabulary.iff (.arrow .prop (.arrow .prop .prop)),
  postulate Vocabulary.iffRefl (.pi .default .prop (.mkIff (var 0) (var 0))),
  postulate Vocabulary.iffSymm
    (overProp (overProp (.pi .default (.mkIff (var 1) (var 0)) (.mkIff (var 1) (var 2))))),
  postulate Vocabulary.propext
    (overProp (overProp (.pi .default (.mkIff (var 1) (var 0))
      (.mkEq .one .prop (var 2) (var 1)))))]

/-- The type of an operator: `α → α → α` for every type `α`. -/
def operatorType : Expr := overSort (.arrow (var 0) (.arrow (var 0) (var 0)))

/-- Numbers, texts and the operators. -/
def arithmetic : List Constant :=
  let nat := Expr.const Vocabulary.nat []
  [postulate Vocabulary.nat .type,
   postulate Vocabulary.string .type,
   postulate Vocabulary.natZero nat,
   postulate Vocabulary.natSucc (.arrow nat nat),
   postulateAt Vocabulary.add operatorType,
   postulateAt Vocabulary.mul operatorType]

/-- All of them, in the order in which they are declared. -/
def constants : List Constant := equality ++ equivalence ++ arithmetic

end Pinpoint.Prelude

namespace Pinpoint.Catalogue

/-- The catalogue of the prelude, each constant checked as it is declared. -/
def ofPrelude (fuel : Nat) : ExceptT CheckError Option Catalogue :=
  (declareAll fuel Prelude.constants).outcome .empty

end Pinpoint.Catalogue
