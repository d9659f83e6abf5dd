/-
Reading JSON.

The reader accepts the grammar of JSON and nothing else: no other blanks, no
trailing comma, no leading zero, nothing after the value.  It takes fuel for
each call; every second call takes a character off the text, so twice the
length of the text is enough.
-/
import Pinpoint.Json.Basic

namespace Pinpoint.Json

/-- Blanks between the parts of a document. -/
def isSpace (c : Char) : Bool := c == ' ' || c == '\n' || c == '\t' || c == '\r'

/-- The text without the blanks that it begins with. -/
def skipSpace (cs : List Char) : List Char := cs.dropWhile isSpace

/-- A written text after its opening quote, and what follows its closing
quote. -/
def takeText : List Char → Option (List Char × List Char)
  | [] => none
  | '"' :: cs => some ([], cs)
  | '\\' :: 'u' :: a :: b :: c :: d :: cs =>
    if (hex4? a b c d).isSome then
      (takeText cs).map fun (t, rest) => ('\\' :: 'u' :: a :: b :: c :: d :: t, rest)
    else none
  | '\\' :: c :: cs =>
    if (shortEscape? c).isSome then (takeText cs).map fun (t, rest) => ('\\' :: c :: t, rest)
    else none
  | c :: cs =>
    if c.toNat < 0x20 || c == '\\' then none
    else (takeText cs).map fun (t, rest) => (c :: t, rest)

/-- One or more digits, and what follows them. -/
def takeDigits (cs : List Char) : Option (List Char × List Char) :=
  match cs.takeWhile Char.isDigit with
  | [] => none
  | ds => some (ds, cs.dropWhile Char.isDigit)

/-- The whole part of a number: `0`, or digits that begin otherwise. -/
def takeWhole : List Char → Option (List Char × List Char)
  | '0' :: cs => if cs.head?.any Char.isDigit then none else some (['0'], cs)
  | cs => takeDigits cs

/-- The fraction of a number, if there is one. -/
def takeFraction : List Char → Option (List Char × List Char)
  | '.' :: cs => (takeDigits cs).map fun (ds, rest) => ('.' :: ds, rest)
  | cs => some ([], cs)

/-- The exponent of a number, if there is one. -/
def takeExponent : List Char → Option (List Char × List Char)
  | e :: cs =>
    if e == 'e' || e == 'E' then
      match cs with
      | s :: cs' =>
        if s == '+' || s == '-' then (takeDigits cs').map fun (ds, rest) => (e :: s :: ds, rest)
        else (takeDigits cs).map fun (ds, rest) => (e :: ds, rest)
      | [] => none
    else some ([], e :: cs)
  | [] => some ([], [])

/-- A number, and what follows it. -/
def takeNumber (cs : List Char) : Option (List Char × List Char) := do
  let (sign, cs) :=
    match cs with
    | '-' :: cs => (['-'], cs)
    | cs => ([], cs)
  let (whole, cs) ← takeWhole cs
  let (fraction, cs) ← takeFraction cs
  let (exponent, cs) ← takeExponent cs
  return (sign ++ whole ++ fraction ++ exponent, cs)

mutual

/-- A value, and what follows it. -/
def takeValue : Nat → List Char → Option (Json × List Char)
  | 0, _ => none
  | n + 1, cs =>
    match skipSpace cs with
    | '{' :: cs =>
      match skipSpace cs with
      | '}' :: cs => some (.object [], cs)
      | cs => (takeMembers n cs).map fun (ms, rest) => (.object ms, rest)
    | '[' :: cs =>
      match skipSpace cs with
      | ']' :: cs => some (.array [], cs)
      | cs => (takeItems n cs).map fun (vs, rest) => (.array vs, rest)
    | '"' :: cs => (takeText cs).map fun (t, rest) => (.text (String.ofList t), rest)
    | 'n' :: 'u' :: 'l' :: 'l' :: cs => some (.null, cs)
    | 't' :: 'r' :: 'u' :: 'e' :: cs => some (.bool true, cs)
    | 'f' :: 'a' :: 'l' :: 's' :: 'e' :: cs => some (.bool false, cs)
    | cs => (takeNumber cs).map fun (t, rest) => (.number (String.ofList t), rest)

/-- The items of an array, up to and including its closing bracket. -/
def takeItems : Nat → List Char → Option (List Json × List Char)
  | 0, _ => none
  | n + 1, cs => do
    let (v, cs) ← takeValue n cs
    match skipSpace cs with
    | ',' :: cs => (takeItems n cs).map fun (vs, rest) => (v :: vs, rest)
    | ']' :: cs => some ([v], cs)
    | _ => none

/-- The members of an object, up to and including its closing brace. -/
def takeMembers : Nat → List Char → Option (List (String × Json) × List Char)
  | 0, _ => none
  | n + 1, cs => do
    match skipSpace cs with
    | '"' :: cs =>
      let (key, cs) ← takeText cs
      match skipSpace cs with
      | ':' :: cs =>
        let (v, cs) ← takeValue n cs
        let member := (String.ofList key, v)
        match skipSpace cs with
        | ',' :: cs => (takeMembers n cs).map fun (ms, rest) => (member :: ms, rest)
        | '}' :: cs => some ([member], cs)
        | _ => none
      | _ => none
    | _ => none

end

/-- The value that a text is. -/
def parse? (text : String) : Option Json := do
  let cs := text.toList
  let (v, rest) ← takeValue (2 * cs.length + 1) cs
  if (skipSpace rest).isEmpty then some v else none

end Pinpoint.Json
