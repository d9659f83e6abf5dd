/-
Quoted text, as literals and tokens appear in printed terms and messages.

The quote, the backslash, line feed, carriage return, tab and the null
character get a backslash escape; a character that cannot be seen on its own
is spelled by its code point in lower case hexadecimal digits between braces;
all else stands for itself.
-/
import Pinpoint.Text.Unprintable

namespace Pinpoint.Text

/-- The spelling of a character by its code point: `u` and the hexadecimal
digits between braces, after a backslash. -/
def codePointEscape (c : Char) : List Char :=
  '\\' :: 'u' :: '{' :: (Nat.toDigits 16 c.toNat ++ ['}'])

/-- How one character is written between the quotes. -/
def quoteChar (c : Char) : List Char :=
  match c with
  | '\x00' => ['\\', '0']
  | '\t' => ['\\', 't']
  | '\r' => ['\\', 'r']
  | '\n' => ['\\', 'n']
  | '\\' => ['\\', '\\']
  | '"' => ['\\', '"']
  | c => if isUnprintable c then codePointEscape c else [c]

/-- A text between quotes. -/
def quote (s : String) : String :=
  String.ofList ('"' :: (s.toList.flatMap quoteChar ++ ['"']))

end Pinpoint.Text
