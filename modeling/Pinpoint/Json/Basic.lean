/-
JSON documents.

Numbers and texts are kept as they are written, so nothing is lost in reading
a document; `decode?` and `encode` convert between what a text says and how
it is written.  A written text may pair its escapes wrongly and then says
nothing, though the document around it is still one.
-/

namespace Pinpoint

/-- JSON values.  A number, a text and a key are given as they are written,
without the quotes. -/
inductive Json where
  | null
  | bool (b : Bool)
  | number (written : String)
  | text (written : String)
  | array (items : List Json)
  | object (members : List (String × Json))

namespace Json

instance : Inhabited Json := ⟨.null⟩

/-! ### Texts -/

/-- The value of a hexadecimal digit. -/
def hexValue? (c : Char) : Option Nat :=
  if '0' ≤ c ∧ c ≤ '9' then some (c.toNat - '0'.toNat)
  else if 'a' ≤ c ∧ c ≤ 'f' then some (c.toNat - 'a'.toNat + 10)
  else if 'A' ≤ c ∧ c ≤ 'F' then some (c.toNat - 'A'.toNat + 10)
  else none

/-- The value of four hexadecimal digits. -/
def hex4? (a b c d : Char) : Option Nat := do
  let a ← hexValue? a
  let b ← hexValue? b
  let c ← hexValue? c
  let d ← hexValue? d
  return ((a * 16 + b) * 16 + c) * 16 + d

/-- The character of an escape with one letter. -/
def shortEscape? : Char → Option Char
  | '"' => some '"'
  | '\\' => some '\\'
  | '/' => some '/'
  | 'b' => some '\x08'
  | 'f' => some '\x0c'
  | 'n' => some '\n'
  | 'r' => some '\r'
  | 't' => some '\t'
  | _ => none

/-- What a written text says.  A code point above the first plane is written
as two escapes, the first between `D800` and `DBFF` and the second between
`DC00` and `DFFF`; neither stands alone. -/
def decodeChars? : List Char → Option (List Char)
  | [] => some []
  | '\\' :: 'u' :: a :: b :: c :: d :: cs => do
    let n ← hex4? a b c d
    if 0xDC00 ≤ n ∧ n ≤ 0xDFFF then none
    else if n < 0xD800 ∨ 0xDBFF < n then return Char.ofNat n :: (← decodeChars? cs)
    else
      match cs with
      | '\\' :: 'u' :: a' :: b' :: c' :: d' :: cs' =>
        let m ← hex4? a' b' c' d'
        if 0xDC00 ≤ m ∧ m ≤ 0xDFFF then
          let n := 0x10000 + (n - 0xD800) * 0x400 + (m - 0xDC00)
          return Char.ofNat n :: (← decodeChars? cs')
        else none
      | _ => none
  | '\\' :: c :: cs => do
    let e ← shortEscape? c
    return e :: (← decodeChars? cs)
  | c :: cs => return c :: (← decodeChars? cs)

/-- How a character is written. -/
def encodeChar (c : Char) : List Char :=
  match c with
  | '"' => ['\\', '"']
  | '\\' => ['\\', '\\']
  | '\x08' => ['\\', 'b']
  | '\x0c' => ['\\', 'f']
  | '\n' => ['\\', 'n']
  | '\r' => ['\\', 'r']
  | '\t' => ['\\', 't']
  | c =>
    if c.toNat < 0x20 then
      '\\' :: 'u' :: '0' :: '0' :: Nat.digitChar (c.toNat / 16) :: [Nat.digitChar (c.toNat % 16)]
    else [c]

/-- What a written text says, if it says anything. -/
def decode? (written : String) : Option String :=
  (decodeChars? written.toList).map String.ofList

/-- How a text is written. -/
def encode (s : String) : String := String.ofList (s.toList.flatMap encodeChar)

/-! ### Making and reading values -/

/-- A text that says `s`. -/
def ofString (s : String) : Json := .text (encode s)

/-- A natural number. -/
def ofNat (n : Nat) : Json := .number (toString n)

/-- An object with the given keys and values. -/
def ofMembers (members : List (String × Json)) : Json :=
  .object (members.map fun (k, v) => (encode k, v))

/-- What the value says, if it is a text. -/
def string? : Json → Option String
  | .text written => decode? written
  | _ => none

end Json

end Pinpoint
