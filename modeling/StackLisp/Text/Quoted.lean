import StackLisp.Text.Unprintable

/-!
Strings as they are printed: between double quotes, with the quote and the backslash escaped, short
escapes for line ends, tabs and NUL, and a braced code point for whatever has no printed form.
-/

namespace StackLisp.Text

/-- Lower-case hexadecimal digits without padding. -/
def hexDigits (n : Nat) : List Char :=
  Nat.toDigits 16 n

def encodeChar (c : Char) : List Char :=
  if c = '"' then ['\\', '"']
  else if c = '\\' then ['\\', '\\']
  else if c = '\n' then ['\\', 'n']
  else if c = '\r' then ['\\', 'r']
  else if c = '\t' then ['\\', 't']
  else if c = '\x00' then ['\\', '0']
  else if isUnprintable c then ['\\', 'u', '\x7b'] ++ hexDigits c.toNat ++ ['\x7d']
  else [c]

def encode (cs : List Char) : List Char :=
  cs.flatMap encodeChar

def quoted (s : String) : List Char :=
  '"' :: encode s.toList ++ ['"']

end StackLisp.Text
