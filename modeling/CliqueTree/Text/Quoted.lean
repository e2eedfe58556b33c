import CliqueTree.Text.Unprintable

/-!
# Quoted text

How a string or a character is shown to a person: between delimiters, with the delimiter, the backslash
and the common control characters behind a backslash, other characters that do not print as `\u` with
their number in braces, and all else as it is.
-/

set_option autoImplicit false

namespace CliqueTree.Text

/-- Lower-case hexadecimal digits of `n`, without leading zeros. -/
def hexDigits (n : Nat) : List Char := Nat.toDigits 16 n

/-- One character of a text that stands between `delimiter`s. -/
def quoteChar (delimiter c : Char) : List Char :=
  if c = '\x00' then ['\\', '0']
  else if c = '\t' then ['\\', 't']
  else if c = '\n' then ['\\', 'n']
  else if c = '\r' then ['\\', 'r']
  else if c = '\\' then ['\\', '\\']
  else if c = delimiter then ['\\', c]
  else if unprintable c then ['\\', 'u', '\x7b'] ++ hexDigits c.toNat ++ ['\x7d']
  else [c]

/-- The characters between two `delimiter`s. -/
def quote (delimiter : Char) (cs : List Char) : List Char :=
  delimiter :: cs.flatMap (quoteChar delimiter) ++ [delimiter]

/-- A string in double quotes; a single quote stays bare. -/
def quoteString (s : String) : String := String.ofList (quote '"' s.toList)

/-- A character in single quotes; a double quote stays bare. -/
def quoteLetter (c : Char) : String := String.ofList (quote '\'' [c])

end CliqueTree.Text
