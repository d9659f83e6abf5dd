/-
From text to tokens.

Blanks and comments (`--` up to the end of the line) separate tokens.  A sign
is the first of `signs` that the text begins with; every operator can be
written with a letter of mathematics or in ASCII.  `scan` takes one token off
a text: what it takes and what it leaves make up the text
(`text_append_rest_of_scan`), and it never takes nothing
(`text_ne_nil_of_scan`), so `tokenize` ends.
-/
import Pinpoint.Surface.Token
import Pinpoint.Text.Alphabetic
import Pinpoint.Text.Blank
import Pinpoint.Text.Numeral

namespace Pinpoint.Surface

/-! ### Characters -/

/-- Letters, except the sign of a function, and the underscore. -/
def isIdentStart (c : Char) : Bool := (Text.isAlphabetic c && c != 'λ') || c == '_'

/-- The digits written below the line. -/
def isSubscript (c : Char) : Bool := '₀' ≤ c && c ≤ '₉'

/-- What may follow the first character of an identifier. -/
def isIdentRest (c : Char) : Bool :=
  isIdentStart c || c.isDigit || c == '\'' || c == '!' || c == '?' || isSubscript c

/-- The number of bytes of a text in UTF-8. -/
def utf8Length : List Char → Nat
  | [] => 0
  | c :: cs => c.utf8Size + utf8Length cs

/-! ### Blanks and comments -/

/-- Takes blanks and comments off a text; the flag tells whether the text
begins inside a comment. -/
def splitTrivia : Bool → List Char → List Char × List Char
  | _, [] => ([], [])
  | true, c :: cs =>
    let (trivia, rest) := splitTrivia (c != '\n') cs
    (c :: trivia, rest)
  | false, c :: cs =>
    if Text.isBlank c || (c == '-' && cs.head? == some '-') then
      let (trivia, rest) := splitTrivia (!Text.isBlank c) cs
      (c :: trivia, rest)
    else ([], c :: cs)

/-! ### Tokens -/

/-- The signs; where one begins with another, the longer one is first. -/
def signs : List (List Char × TokenKind) := [
  (['<', '-', '>'], .iff),
  (['-', '>'], .arrow),
  (['<', '-'], .leftArrow),
  (['=', '>'], .fatArrow),
  (['('], .lparen),
  ([')'], .rparen),
  ([':'], .colon),
  ([','], .comma),
  (['→'], .arrow),
  (['↔'], .iff),
  (['←'], .leftArrow),
  (['='], .eq),
  (['+'], .plus),
  (['*'], .star),
  (['∀'], .all),
  (['λ'], .lam)]

/-- Takes the rest of an identifier off a text.  A point belongs to it when
another identifier follows the point. -/
def splitIdent : List Char → List Char × List Char
  | [] => ([], [])
  | c :: cs =>
    if isIdentRest c || (c == '.' && cs.head?.any isIdentStart) then
      let (ident, rest) := splitIdent cs
      (c :: ident, rest)
    else ([], c :: cs)

/-- The kind of a word. -/
def wordKind (word : String) : TokenKind :=
  if word = "_" then .underscore
  else if word = "fun" then .lam
  else if word = "forall" then .all
  else .ident word

/-- The character that a backslash and `c` stand for in a text literal. -/
def unescape (c : Char) : Char := if c = 'n' then '\n' else c

/-- A text literal after its opening quote: what it stands for, what is taken
off, and what is left; none without a closing quote. -/
def splitString : List Char → Option (List Char × List Char × List Char)
  | [] => none
  | ['\\'] => none
  | '"' :: cs => some ([], ['"'], cs)
  | '\\' :: c :: cs =>
    (splitString cs).map fun (value, text, rest) => (unescape c :: value, '\\' :: c :: text, rest)
  | c :: cs => (splitString cs).map fun (value, text, rest) => (c :: value, c :: text, rest)

/-- A token taken off a text. -/
structure Lexeme where
  kind : TokenKind
  text : List Char
  rest : List Char
deriving DecidableEq, Repr

/-- Why no token can be taken off a text. -/
inductive ScanError where
  | unexpectedChar (c : Char)
  | unterminatedString
  | numericOverflow
deriving DecidableEq, Repr

/-- The fault of a text that goes on like this at `pos`. -/
def ScanError.at (pos : Nat) : ScanError → ParseError
  | .unexpectedChar c => .unexpectedChar pos c
  | .unterminatedString => .unterminatedString pos
  | .numericOverflow => .numericOverflow pos

/-- Takes a number off a text. -/
def scanNumber (cs : List Char) : Except ScanError Lexeme :=
  match Text.Numeral.digits? UInt64.size (cs.takeWhile Char.isDigit) with
  | some n => .ok ⟨.nat (UInt64.ofNat n), cs.takeWhile Char.isDigit, cs.dropWhile Char.isDigit⟩
  | none => .error .numericOverflow

/-- Takes the rest of a text literal off a text, after its opening quote. -/
def scanString (cs : List Char) : Except ScanError Lexeme :=
  match splitString cs with
  | some (value, text, rest) => .ok ⟨.str (String.ofList value), '"' :: text, rest⟩
  | none => .error .unterminatedString

/-- Takes a word that begins with `c` off a text. -/
def scanWord (c : Char) (cs : List Char) : Lexeme :=
  let ident := c :: (splitIdent cs).1
  ⟨wordKind (String.ofList ident), ident, (splitIdent cs).2⟩

/-- Takes one token off a text that begins with neither a blank nor a
comment. -/
def scan (c : Char) (cs : List Char) : Except ScanError Lexeme :=
  match signs.find? fun sign => sign.1.isPrefixOf (c :: cs) with
  | some (text, kind) => .ok ⟨kind, text, (c :: cs).drop text.length⟩
  | none =>
    if c.isDigit then scanNumber (c :: cs)
    else if c = '"' then scanString cs
    else if isIdentStart c then .ok (scanWord c cs)
    else .error (.unexpectedChar c)

/-! ### Nothing is lost -/

theorem append_splitTrivia (comment : Bool) (cs : List Char) :
    (splitTrivia comment cs).1 ++ (splitTrivia comment cs).2 = cs := by
  induction cs generalizing comment with
  | nil => cases comment <;> rfl
  | cons c cs ih =>
    cases comment with
    | true => simp [splitTrivia, ih]
    | false =>
      simp only [splitTrivia]
      split
      · simp [ih]
      · rfl

theorem append_splitIdent (cs : List Char) : (splitIdent cs).1 ++ (splitIdent cs).2 = cs := by
  induction cs with
  | nil => rfl
  | cons c cs ih =>
    simp only [splitIdent]
    split
    · simp [ih]
    · rfl

theorem append_of_splitString {cs value text rest : List Char}
    (h : splitString cs = some (value, text, rest)) : text ++ rest = cs := by
  fun_induction splitString cs generalizing value text rest with
  | case1 => cases h
  | case2 => cases h
  | case3 cs => cases h; rfl
  | case4 c cs ih =>
    obtain ⟨⟨v, t, r⟩, hs, heq⟩ := Option.map_eq_some_iff.mp h
    cases heq
    simp [ih hs]
  | case5 c cs _ _ _ ih =>
    obtain ⟨⟨v, t, r⟩, hs, heq⟩ := Option.map_eq_some_iff.mp h
    cases heq
    simp [ih hs]

/-- What a scan takes and what it leaves make up the text. -/
theorem text_append_rest_of_scan {c : Char} {cs : List Char} {l : Lexeme}
    (h : scan c cs = .ok l) : l.text ++ l.rest = c :: cs := by
  unfold scan at h
  split at h
  · rename_i text kind hsign
    cases h
    have hfound := List.find?_some hsign
    obtain ⟨rest, hrest⟩ := List.isPrefixOf_iff_prefix.mp hfound
    rw [← hrest]
    simp
  · split at h
    · unfold scanNumber at h
      split at h
      · cases h
        simp
      · cases h
    · split at h
      · rename_i hquote
        unfold scanString at h
        split at h
        · rename_i hs
          cases h
          simp [append_of_splitString hs, hquote]
        · cases h
      · split at h
        · cases h
          simp [scanWord, append_splitIdent]
        · cases h

/-- A scan takes something. -/
theorem text_ne_nil_of_scan {c : Char} {cs : List Char} {l : Lexeme}
    (h : scan c cs = .ok l) : l.text ≠ [] := by
  unfold scan at h
  split at h
  · rename_i text kind hsign
    cases h
    have hne : ∀ sign ∈ signs, sign.1 ≠ [] := by decide
    exact hne (text, kind) (List.mem_of_find?_eq_some hsign)
  · split at h
    · rename_i hdigit
      unfold scanNumber at h
      split at h
      · cases h
        simp [hdigit]
      · cases h
    · split at h
      · unfold scanString at h
        split at h
        · cases h
          simp
        · cases h
      · split at h
        · cases h
          simp [scanWord]
        · cases h

/-- A scan leaves less than there was. -/
theorem length_rest_lt_of_scan {c : Char} {cs : List Char} {l : Lexeme}
    (h : scan c cs = .ok l) : l.rest.length < cs.length + 1 := by
  have happ := congrArg List.length (text_append_rest_of_scan h)
  have hpos := List.length_pos_iff.mpr (text_ne_nil_of_scan h)
  simp only [List.length_append, List.length_cons] at happ
  omega

/-! ### Whole texts -/

/-- The tokens of the rest of a text, which begins at `start`; the last one
is the end of the text. -/
def tokenizeFrom (start : Nat) (cs : List Char) : Except ParseError (List Token) :=
  match _hs : splitTrivia false cs with
  | (trivia, rest) =>
    let pos := start + utf8Length trivia
    match _hr : rest with
    | [] => .ok [⟨.eof, ⟨pos, pos⟩⟩]
    | c :: cs' =>
      match _hl : scan c cs' with
      | .error e => .error (e.at pos)
      | .ok l => do
        let stop := pos + utf8Length l.text
        let ts ← tokenizeFrom stop l.rest
        return ⟨l.kind, ⟨pos, stop⟩⟩ :: ts
termination_by cs.length
decreasing_by
  have happ := congrArg List.length (append_splitTrivia false cs)
  have hlt := length_rest_lt_of_scan _hl
  simp only [_hs, List.length_append, List.length_cons] at happ
  omega

/-- The tokens of a text. -/
def tokenize (text : String) : Except ParseError (List Token) := tokenizeFrom 0 text.toList

end Pinpoint.Surface
