/-
Tokens of the term language, and the faults that reading can find.

Positions are offsets in the UTF-8 encoding of the text.
-/
import Pinpoint.Text.Quoted

namespace Pinpoint.Surface

/-- A stretch of the text, from `start` up to but not including `stop`. -/
structure Span where
  start : Nat
  stop : Nat
deriving DecidableEq, Repr

/-- The shortest stretch that covers both. -/
def Span.merge (a b : Span) : Span := ⟨min a.start b.start, max a.stop b.stop⟩

/-- Kinds of tokens. -/
inductive TokenKind where
  /-- An identifier, possibly dotted. -/
  | ident (name : String)
  | nat (n : UInt64)
  | str (s : String)
  | lparen
  | rparen
  | colon
  | comma
  | fatArrow
  | arrow
  | iff
  | leftArrow
  | eq
  | plus
  | star
  /-- The quantifier. -/
  | all
  /-- The sign or keyword that opens a function. -/
  | lam
  | underscore
  /-- The end of the text. -/
  | eof
deriving DecidableEq, Repr

/-- The name of a kind of token. -/
def TokenKind.name : TokenKind → String
  | .ident _ => "Ident"
  | .nat _ => "NatLit"
  | .str _ => "StrLit"
  | .lparen => "LParen"
  | .rparen => "RParen"
  | .colon => "Colon"
  | .comma => "Comma"
  | .fatArrow => "FatArrow"
  | .arrow => "Arrow"
  | .iff => "Iff"
  | .leftArrow => "LeftArrow"
  | .eq => "Eq"
  | .plus => "Plus"
  | .star => "Star"
  | .all => "Forall"
  | .lam => "Fun"
  | .underscore => "Underscore"
  | .eof => "Eof"

/-- The name of a kind of token, with what the token holds, as messages show
it. -/
def TokenKind.describe (k : TokenKind) : String :=
  match k with
  | .ident s | .str s => k.name ++ "(" ++ Text.quote s ++ ")"
  | .nat n => k.name ++ "(" ++ toString n.toNat ++ ")"
  | _ => k.name

/-- A token and where it stands. -/
structure Token where
  kind : TokenKind
  span : Span
deriving DecidableEq, Repr

/-- What the grammar asks for where something else stands. -/
inductive Expectation where
  | expression
  | binderName
  | endOfInput
  | token (kind : TokenKind)
deriving DecidableEq, Repr

/-- The expectation in words. -/
def Expectation.describe : Expectation → String
  | .expression => "expression"
  | .binderName => "binder name"
  | .endOfInput => "end of input"
  | .token k => k.describe

/-- Faults of a text. -/
inductive ParseError where
  /-- A character that begins no token. -/
  | unexpectedChar (pos : Nat) (c : Char)
  /-- A text literal without its closing quote. -/
  | unterminatedString (pos : Nat)
  /-- A number of more than 64 bits. -/
  | numericOverflow (pos : Nat)
  /-- A token that the grammar does not allow where it stands. -/
  | unexpectedToken (pos : Nat) (expected : Expectation) (got : TokenKind)
  /-- The end of the text where the grammar asks for more. -/
  | unexpectedEnd
deriving DecidableEq, Repr

/-- The fault in words. -/
def ParseError.message : ParseError → String
  | .unexpectedChar pos c =>
    "unexpected character '" ++ String.singleton c ++ "' at " ++ toString pos
  | .unterminatedString pos => "unterminated string literal starting at " ++ toString pos
  | .numericOverflow pos => "numeric literal out of range at " ++ toString pos
  | .unexpectedToken pos expected got =>
    "unexpected token at " ++ toString pos ++ ": expected " ++ expected.describe ++ ", got " ++
      got.describe
  | .unexpectedEnd => "unexpected end of input"

end Pinpoint.Surface
