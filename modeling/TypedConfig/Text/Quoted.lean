import TypedConfig.Text.Hidden

/-!
# Quoted characters

How a message shows single characters: between apostrophes, with an escape for the apostrophe, the
backslash, the usual controls, and every character that shows nothing of its own.
-/

namespace TypedConfig.Text

/-- The code point of a hidden character, in hexadecimal between braces. -/
def codePointEscape (c : Char) : List Char :=
  "\\u\x7b".toList ++ Nat.toDigits 16 c.toNat ++ ['\x7d']

/-- A character as it stands between apostrophes. -/
def escapeChar (c : Char) : List Char :=
  match c with
  | '\x00' => ['\\', '0']
  | '\t' => ['\\', 't']
  | '\r' => ['\\', 'r']
  | '\n' => ['\\', 'n']
  | '\'' => ['\\', '\'']
  | '\\' => ['\\', '\\']
  | _ => if isHidden c then codePointEscape c else [c]

/-- A character between apostrophes. -/
def quoteChar (c : Char) : String := String.ofList ('\'' :: escapeChar c ++ ['\''])

/-- Characters between apostrophes, as a list in brackets. -/
def quoteChars (cs : List Char) : String :=
  "[" ++ String.intercalate ", " (cs.map quoteChar) ++ "]"

end TypedConfig.Text
