/-
From tokens to terms.

The grammar, from the loosest to the tightest level:

* equivalences `a ↔ b`, grouped to the left;
* function types `a → b`, grouped to the right;
* equations `a = b`, not grouped;
* sums `a + b` and then products `a * b`, grouped to the left;
* applications `f a b`;
* atoms: names, literals, terms in parentheses, and `∀ binders, b` and
  `fun binders => b`, which extend as far to the right as they can.

Each level is a reader built from the reader of the next level.  A reader
takes some tokens off a list and says so in the type of its result, `Parsed`;
`Reader n` reads lists of at most `n` tokens.  Only an atom contains terms of
the loosest level, after at least one token of its own, so the readers for
lists of `n + 1` tokens are built from those for `n`.
-/
import Pinpoint.Surface.Lexer
import Pinpoint.Surface.Term

namespace Pinpoint.Surface

/-! ### Readers -/

/-- What was read off a list of tokens, and the shorter list that is left. -/
structure Parsed (α : Type) (ts : List Token) where
  value : α
  rest : List Token
  shorter : rest.length < ts.length

/-- What was read, perhaps nothing, off a list of tokens, and what is left. -/
structure Repeated (α : Type) (ts : List Token) where
  values : List α
  rest : List Token
  noLonger : rest.length ≤ ts.length

/-- Readers of lists of at most `n` tokens. -/
abbrev Reader (n : Nat) (α : Type) : Type :=
  (ts : List Token) → ts.length ≤ n → Except ParseError (Parsed α ts)

/-- The fault of tokens that begin otherwise than expected. -/
def unexpected (expected : Expectation) : List Token → ParseError
  | [] => .unexpectedEnd
  | t :: _ =>
    if t.kind = .eof then .unexpectedEnd
    else .unexpectedToken t.span.start expected t.kind

/-- Takes a token of the given kind. -/
def expect (kind : TokenKind) : (ts : List Token) → Except ParseError (Parsed Span ts)
  | [] => .error .unexpectedEnd
  | t :: ts =>
    if t.kind = kind then .ok ⟨t.span, ts, by simp⟩
    else .error (unexpected (.token kind) (t :: ts))

/-- Reads as many further items as there are, each after a separator. -/
def further {n : Nat} {α : Type} (separator : TokenKind) (item : Reader n α) :
    (ts : List Token) → ts.length ≤ n → Except ParseError (Repeated α ts)
  | [], _ => .ok ⟨[], [], by simp⟩
  | t :: ts, h =>
    if t.kind = separator then do
      let first ← item ts (by simp at h; omega)
      have hfirst := first.shorter
      let others ← further separator item first.rest (by simp at h; omega)
      have hothers := others.noLonger
      return ⟨first.value :: others.values, others.rest, by simp; omega⟩
    else .ok ⟨[], t :: ts, by simp⟩
termination_by ts => ts.length
decreasing_by simp; omega

/-- Reads items with separators between them, and joins them. -/
def separated {n : Nat} {α : Type} (separator : TokenKind) (join : α → List α → α)
    (item : Reader n α) : Reader n α := fun ts h => do
  let first ← item ts h
  have hfirst := first.shorter
  let others ← further separator item first.rest (by omega)
  have hothers := others.noLonger
  return ⟨join first.value others.values, others.rest, by omega⟩

/-- Joins items to the left. -/
def joinLeft {α : Type} (join : α → α → α) (first : α) (others : List α) : α :=
  others.foldl join first

/-- Joins items to the right. -/
def joinRight {α : Type} (join : α → α → α) : α → List α → α
  | first, [] => first
  | first, next :: others => join first (joinRight join next others)

/-! ### Levels above the atoms -/

/-- Whether a token begins an atom. -/
def TokenKind.startsAtom : TokenKind → Bool
  | .ident _ | .nat _ | .str _ | .lparen | .all | .lam => true
  | _ => false

/-- Reads the arguments of an application; none follows a binder. -/
def arguments {n : Nat} (atom : Reader n Term) :
    (ts : List Token) → ts.length ≤ n → Except ParseError (Repeated Term ts)
  | [], _ => .ok ⟨[], [], by simp⟩
  | t :: ts, h =>
    if t.kind.startsAtom then do
      let first ← atom (t :: ts) h
      have hfirst := first.shorter
      if first.value.isBinder then return ⟨[first.value], first.rest, by omega⟩
      else
        let others ← arguments atom first.rest (by omega)
        have hothers := others.noLonger
        return ⟨first.value :: others.values, others.rest, by omega⟩
    else .ok ⟨[], t :: ts, by simp⟩
termination_by ts => ts.length
decreasing_by exact hfirst

/-- Applications. -/
def application {n : Nat} (atom : Reader n Term) : Reader n Term := fun ts h => do
  let head ← atom ts h
  have hhead := head.shorter
  let args ← arguments atom head.rest (by omega)
  have hargs := args.noLonger
  return ⟨head.value.apply args.values, args.rest, by omega⟩

/-- Products. -/
def product {n : Nat} (atom : Reader n Term) : Reader n Term :=
  separated .star (joinLeft (Term.join .mul)) (application atom)

/-- Sums. -/
def sum {n : Nat} (atom : Reader n Term) : Reader n Term :=
  separated .plus (joinLeft (Term.join .add)) (product atom)

/-- Equations. -/
def equation {n : Nat} (atom : Reader n Term) : Reader n Term := fun ts h => do
  let lhs ← sum atom ts h
  have hlhs := lhs.shorter
  match _hrest : lhs.rest with
  | [] => return lhs
  | t :: ts' =>
    if t.kind = .eq then
      have hts' : ts'.length < ts.length := by rw [_hrest] at hlhs; simp at hlhs; omega
      let rhs ← sum atom ts' (by omega)
      have hrhs := rhs.shorter
      return ⟨.join .eq lhs.value rhs.value, rhs.rest, by omega⟩
    else return lhs

/-- Function types. -/
def functionType {n : Nat} (atom : Reader n Term) : Reader n Term :=
  separated .arrow (joinRight Term.joinArrow) (equation atom)

/-- Equivalences, read with a reader for function types. -/
def equivalence {n : Nat} (functionType : Reader n Term) : Reader n Term :=
  separated .iff (joinLeft (Term.join .iff)) functionType

/-! ### Binders and atoms -/

/-- The binder that a token names. -/
def binder? (t : Token) : Option Binder :=
  match t.kind with
  | .ident s => some ⟨t.span, s⟩
  | .underscore => some ⟨t.span, "_"⟩
  | _ => none

/-- Reads as many bound names as there are. -/
def moreNames : (ts : List Token) → Repeated Binder ts
  | [] => ⟨[], [], by simp⟩
  | t :: ts =>
    match binder? t with
    | some b =>
      let others := moreNames ts
      have hothers := others.noLonger
      ⟨b :: others.values, others.rest, by simp; omega⟩
    | none => ⟨[], t :: ts, by simp⟩

/-- Reads bound names, at least one. -/
def names : (ts : List Token) → Except ParseError (Parsed (Binder × List Binder) ts)
  | [] => .error .unexpectedEnd
  | t :: ts =>
    match binder? t with
    | some b =>
      let others := moreNames ts
      have hothers := others.noLonger
      .ok ⟨(b, others.values), others.rest, Nat.lt_succ_of_le hothers⟩
    | none => .error (unexpected .binderName (t :: ts))

/-- Reads names, a colon and their type. -/
def binderGroup {n : Nat} (type : Reader n Term) : Reader n Binders := fun ts h => do
  let bound ← names ts
  have hbound := bound.shorter
  let colon ← expect .colon bound.rest
  have hcolon := colon.shorter
  let type ← type colon.rest (by omega)
  have htype := type.shorter
  return ⟨.group type.value bound.value.1 bound.value.2, type.rest, by omega⟩

/-- Reads groups in parentheses, at least one, of which the first one's
parenthesis has been taken. -/
def binderGroups {n : Nat} (functionType : Reader n Term) :
    (ts : List Token) → ts.length ≤ n → Except ParseError (Parsed Binders ts) := fun ts h => do
  let first ← binderGroup (equivalence functionType) ts h
  have hfirst := first.shorter
  let close ← expect .rparen first.rest
  have hclose := close.shorter
  match _hrest : close.rest with
  | [] => return ⟨first.value, close.rest, by omega⟩
  | t :: ts' =>
    if t.kind = .lparen then
      have hts' : ts'.length < ts.length := by rw [_hrest] at hclose; simp at hclose; omega
      let others ← binderGroups functionType ts' (by omega)
      have hothers := others.shorter
      return ⟨first.value.append others.value, others.rest, by omega⟩
    else return ⟨first.value, close.rest, by omega⟩
termination_by ts => ts.length

/-- Reads binders: one bare group, whose type is a function type, or groups
in parentheses. -/
def binders {n : Nat} (functionType : Reader n Term) : Reader n Binders
  | [], _ => .error .unexpectedEnd
  | t :: ts, h =>
    if t.kind = .lparen then do
      let groups ← binderGroups functionType ts (by simp at h; omega)
      have hgroups := groups.shorter
      return ⟨groups.value, groups.rest, by simp; omega⟩
    else binderGroup functionType (t :: ts) h

/-- Reads the binders and the body of a function or a quantification. -/
def scope {n : Nat} (functionType : Reader n Term) (separator : TokenKind) :
    Reader n (Binders × Term) := fun ts h => do
  let bound ← binders functionType ts h
  have hbound := bound.shorter
  let sign ← expect separator bound.rest
  have hsign := sign.shorter
  let body ← equivalence functionType sign.rest (by omega)
  have hbody := body.shorter
  return ⟨(bound.value, body.value), body.rest, by omega⟩

/-- Atoms; `functionType` reads the shorter lists of tokens inside them. -/
def atom {n : Nat} (functionType : Reader n Term) : Reader (n + 1) Term
  | [], _ => .error .unexpectedEnd
  | t :: ts, h =>
    have hts : ts.length ≤ n := by simpa using h
    match t.kind with
    | .ident s => .ok ⟨.ofIdent t.span s, ts, by simp⟩
    | .nat k => .ok ⟨.nat t.span k, ts, by simp⟩
    | .str s => .ok ⟨.str t.span s, ts, by simp⟩
    | .lparen => do
      let inner ← equivalence functionType ts hts
      have hinner := inner.shorter
      let close ← expect .rparen inner.rest
      have hclose := close.shorter
      return ⟨.paren (t.span.merge close.value) inner.value, close.rest, by simp; omega⟩
    | .all => do
      let s ← scope functionType .comma ts hts
      have hs := s.shorter
      return ⟨.pi (t.span.merge s.value.2.span) s.value.1 s.value.2, s.rest, by simp; omega⟩
    | .lam => do
      let s ← scope functionType .fatArrow ts hts
      have hs := s.shorter
      return ⟨.lam (t.span.merge s.value.2.span) s.value.1 s.value.2, s.rest, by simp; omega⟩
    | _ => .error (unexpected .expression (t :: ts))

/-! ### Whole texts -/

/-- The reader of function types for lists of at most `n` tokens. -/
def functionTypeUpTo : (n : Nat) → Reader n Term
  | 0 => fun _ _ => .error .unexpectedEnd
  | n + 1 => functionType (atom (functionTypeUpTo n))

/-- Reads a term at the beginning of a list of tokens. -/
def term (ts : List Token) : Except ParseError (Parsed Term ts) :=
  equivalence (functionTypeUpTo ts.length) ts (Nat.le_refl _)

/-- Checks that nothing but the end of the text is left. -/
def finish : List Token → Except ParseError Unit
  | [] => .ok ()
  | t :: ts => if t.kind = .eof then .ok () else .error (unexpected .endOfInput (t :: ts))

/-- The term that a list of tokens is. -/
def Term.ofTokens (ts : List Token) : Except ParseError Term := do
  let e ← term ts
  finish e.rest
  return e.value

/-- The term that a text is. -/
def Term.parse (text : String) : Except ParseError Term := do
  let ts ← tokenize text
  Term.ofTokens ts

/-- The rule that a text is. -/
def Rule.parse (text : String) : Except ParseError Rule := do
  let ts ← tokenize text
  match ts with
  | [] => throw .unexpectedEnd
  | t :: ts' =>
    let reversed := t.kind = .leftArrow
    let e ← Term.ofTokens (if reversed then ts' else t :: ts')
    return ⟨t.span.merge e.span, reversed, e⟩

end Pinpoint.Surface
