/-
Terms as they are written.

A term keeps the stretch of text it was read from.  Applications and binders
keep the grouping of the text: one node for `f a b`, one for
`∀ (x y : T), b`, and one for each pair of parentheses.
-/
import Pinpoint.Operator
import Pinpoint.Surface.Token

namespace Pinpoint.Surface

/-- A bound name, `_` for none, and where it stands. -/
structure Binder where
  span : Span
  name : String
deriving DecidableEq, Repr

mutual

/-- Terms as they are written. -/
inductive Term where
  | ident (span : Span) (name : String)
  | prop (span : Span)
  | type (span : Span)
  | nat (span : Span) (n : UInt64)
  | str (span : Span) (s : String)
  | app (span : Span) (head : Term) (args : Args)
  | lam (span : Span) (binders : Binders) (body : Term)
  | pi (span : Span) (binders : Binders) (body : Term)
  | arrow (span : Span) (dom cod : Term)
  | binary (span : Span) (op : Operator) (lhs rhs : Term)
  | paren (span : Span) (inner : Term)

/-- The arguments of an application, at least one. -/
inductive Args where
  | one (arg : Term)
  | cons (arg : Term) (rest : Args)

/-- Binders with their types, at least one. -/
inductive Binders where
  | one (binder : Binder) (type : Term)
  | cons (binder : Binder) (type : Term) (rest : Binders)

end

deriving instance DecidableEq for Term, Args, Binders

namespace Term

instance : Inhabited Term := ⟨.prop ⟨0, 0⟩⟩

/-- The stretch of text that the term was read from. -/
def span : Term → Span
  | .ident s _ | .prop s | .type s | .nat s _ | .str s _ | .app s _ _ | .lam s _ _ | .pi s _ _
  | .arrow s _ _ | .binary s _ _ _ | .paren s _ => s

/-- The term inside the outer parentheses. -/
def unparen : Term → Term
  | .paren _ e => e.unparen
  | e => e

/-- Whether the term is a function or a quantification, which extend as far
to the right as they can. -/
def isBinder : Term → Bool
  | .lam .. | .pi .. => true
  | _ => false

/-- An identifier, or the universe it names. -/
def ofIdent (span : Span) (name : String) : Term :=
  if name = "Prop" then .prop span
  else if name = "Type" then .type span
  else .ident span name

/-- Two terms joined by an operator. -/
def join (op : Operator) (lhs rhs : Term) : Term :=
  .binary (lhs.span.merge rhs.span) op lhs rhs

/-- A function type. -/
def joinArrow (dom cod : Term) : Term := .arrow (dom.span.merge cod.span) dom cod

end Term

namespace Args

/-- The first argument and those after it. -/
def ofList (arg : Term) : List Term → Args
  | [] => .one arg
  | next :: rest => .cons arg (ofList next rest)

/-- The arguments in order. -/
def toList : Args → List Term
  | .one a => [a]
  | .cons a rest => a :: rest.toList

end Args

/-- A head applied to arguments; just the head if there are none. -/
def Term.apply (head : Term) : List Term → Term
  | [] => head
  | arg :: rest =>
    .app ((arg :: rest).foldl (fun s a => s.merge a.span) head.span) head (.ofList arg rest)

namespace Binders

/-- The binders in order, with their types. -/
def toList : Binders → List (Binder × Term)
  | .one b t => [(b, t)]
  | .cons b t rest => (b, t) :: rest.toList

/-- One group of binders that share a type. -/
def group (type : Term) (binder : Binder) : List Binder → Binders
  | [] => .one binder type
  | next :: rest => .cons binder type (group type next rest)

/-- The binders of a group followed by others. -/
def append : Binders → Binders → Binders
  | .one b t, others => .cons b t others
  | .cons b t rest, others => .cons b t (rest.append others)

end Binders

/-- A rewrite rule as it is written: a term, with an arrow to the left before
it to use it from right to left. -/
structure Rule where
  span : Span
  reversed : Bool
  term : Term

end Pinpoint.Surface
