import TreeDigest.Text.Utf8
import TreeDigest.Text.Unprintable
import TreeDigest.Text.Extender

/-!
# Quoted text

Messages that name a key or a codec put it between double quotes, so that blanks
and control characters in it can be seen. The quote and the backslash are
escaped by a backslash, four control characters have letters, and a character
that could not be seen on its own is shown by its number in hexadecimal, between
braces.
-/

namespace TreeDigest.Text

/-- A number in lower-case hexadecimal, without leading zeros. -/
def hexNumber (n : Nat) : List Char := Nat.toDigits 16 n

/-- How one character is written between quotes. -/
def quotedChar (c : Char) : List Char :=
  if c.toNat = 0 then ['\\', '0']
  else if c = '\t' then ['\\', 't']
  else if c = '\n' then ['\\', 'n']
  else if c = '\r' then ['\\', 'r']
  else if c = '\x22' then ['\\', '\x22']
  else if c = '\\' then ['\\', '\\']
  else if isExtender c || isUnprintable c then
    ['\\', 'u', '\x7b'] ++ hexNumber c.toNat ++ ['\x7d']
  else [c]

/-- A text between double quotes. -/
def quotedChars (text : List Char) : String :=
  String.ofList ('\x22' :: (text.flatMap quotedChar ++ ['\x22']))

/-- A text between double quotes. -/
def quoted (text : String) : String := quotedChars text.toList

/-- Octets between double quotes, read as text. -/
def quotedBytes (bytes : Bytes) : String := quotedChars (Utf8.decode bytes)

end TreeDigest.Text
