import Groundplan.Text.Printable

/-!
# Quoted text

How a text or a run of bytes is shown in a message: between single quotes, or double ones if it holds
a single quote and no double one. The quote in use and the backslash are escaped, as is whatever is
not printable, by code point in two, four or eight hexadecimal digits.
-/

namespace Groundplan.Text

/-- The last `width` hexadecimal digits of a number, in small letters. -/
def hexDigits (width n : Nat) : List Char :=
  let digits := Nat.toDigits 16 n
  List.replicate (width - digits.length) '0' ++ digits

/-- The quote that a text is set in. -/
def quoteMark (cs : List Char) : Char :=
  if cs.contains '\'' && !cs.contains '"' then '"' else '\''

/-- One character within the given quotes. -/
def escapeChar (quote c : Char) : List Char :=
  if c == quote || c == '\\' then ['\\', c]
  else if c == '\t' then ['\\', 't']
  else if c == '\n' then ['\\', 'n']
  else if c == '\r' then ['\\', 'r']
  else if isPrintable c then [c]
  else if c.toNat ≤ 0xFF then '\\' :: 'x' :: hexDigits 2 c.toNat
  else if c.toNat ≤ 0xFFFF then '\\' :: 'u' :: hexDigits 4 c.toNat
  else '\\' :: 'U' :: hexDigits 8 c.toNat

/-- A text in quotes. -/
def quotedChars (cs : List Char) : List Char :=
  let quote := quoteMark cs
  quote :: (cs.flatMap (escapeChar quote) ++ [quote])

/-- A text in quotes. -/
def quoted (s : String) : String := String.ofList (quotedChars s.toList)

/-- One byte within the given quotes: what is not printable ASCII is escaped. -/
def escapeByte (quote : Char) (b : UInt8) : List Char :=
  if b.toNat < 0x7F then escapeChar quote (Char.ofNat b.toNat)
  else '\\' :: 'x' :: hexDigits 2 b.toNat

/-- Bytes in quotes, marked by a letter `b` before them. -/
def quotedBytes (bytes : List UInt8) : String :=
  let quote := quoteMark (bytes.map fun b => Char.ofNat b.toNat)
  String.ofList ('b' :: quote :: (bytes.flatMap (escapeByte quote) ++ [quote]))

end Groundplan.Text
