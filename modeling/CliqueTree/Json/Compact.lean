import CliqueTree.Json.Basic

/-!
# Compact JSON text

The text of a value with no blank between its parts. Strings spell the quote, the backslash and the
characters below the space by escapes, and leave all else as it is, so each value has one text and
different values have different texts.
-/

set_option autoImplicit false

namespace CliqueTree.Json

/-- The spelling of one character inside a string: a two-character escape where there is one, four
hexadecimal digits for the other control characters. -/
def escape (c : Char) : List Char :=
  if c = '"' then ['\\', '"']
  else if c = '\\' then ['\\', '\\']
  else if c = '\x08' then ['\\', 'b']
  else if c = '\t' then ['\\', 't']
  else if c = '\n' then ['\\', 'n']
  else if c = '\x0c' then ['\\', 'f']
  else if c = '\r' then ['\\', 'r']
  else if c.toNat < 0x20 then
    ['\\', 'u', '0', '0', Nat.digitChar (c.toNat / 16), Nat.digitChar (c.toNat % 16)]
  else [c]

/-- A string between quotes. -/
def writeString (s : String) : List Char := '"' :: s.toList.flatMap escape ++ ['"']

mutual

/-- The compact text of a value. -/
def write : Json → List Char
  | .null => ['n', 'u', 'l', 'l']
  | .bool true => ['t', 'r', 'u', 'e']
  | .bool false => ['f', 'a', 'l', 's', 'e']
  | .int i => i.repr.toList
  | .fraction spelling => spelling.toList
  | .str s => writeString s
  | .arr items => '[' :: writeItems items
  | .obj fields => '\x7b' :: writeFields fields

/-- The items of an array, and the bracket that closes it. -/
def writeItems : List Json → List Char
  | [] => [']']
  | [v] => write v ++ [']']
  | v :: w :: rest => write v ++ ',' :: writeItems (w :: rest)

/-- The fields of an object, and the brace that closes it. -/
def writeFields : List (String × Json) → List Char
  | [] => ['\x7d']
  | [(n, v)] => writeString n ++ ':' :: write v ++ ['\x7d']
  | (n, v) :: f :: rest => writeString n ++ ':' :: write v ++ ',' :: writeFields (f :: rest)

end

/-- The compact text of a value, as a string. -/
def text (v : Json) : String := String.ofList v.write

end CliqueTree.Json
