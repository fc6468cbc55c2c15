import Groundplan.Text.Quoted

/-!
# Text encodings

Bytes as text. UTF-8 is what files are written in; where the encoding of a JSON text is not known it
is told from a byte order mark, or else from the zero bytes among the first four. A failure names the
encoding, the bytes that could not be read and the reason.
-/

namespace Groundplan.Text

/-- The bytes of a text in UTF-8. -/
def utf8 (s : String) : List UInt8 := s.toUTF8.data.toList

/-- Why bytes are no text: those from `first` to `last` cannot be read. -/
structure DecodeError where
  encoding : String
  byte : UInt8
  first : Nat
  last : Nat
  reason : String
deriving DecidableEq

/-- The message of a decoding failure. -/
def DecodeError.message (e : DecodeError) : String :=
  if e.first = e.last then
    s!"'{e.encoding}' codec can't decode byte 0x" ++ String.ofList (hexDigits 2 e.byte.toNat) ++
      s!" in position {e.first}: {e.reason}"
  else s!"'{e.encoding}' codec can't decode bytes in position {e.first}-{e.last}: {e.reason}"

/-- A byte that continues a character of UTF-8. -/
def isContinuation (b : UInt8) : Bool := 0x80 ≤ b && b < 0xC0

/-- How many bytes a character of UTF-8 with this first byte has, and between which bounds its second
byte lies; none if no character starts so. -/
def leadByte? (b : UInt8) : Option (Nat × UInt8 × UInt8) :=
  if b < 0x80 then some (1, 0x80, 0xBF)
  else if 0xC2 ≤ b && b < 0xE0 then some (2, 0x80, 0xBF)
  else if b == 0xE0 then some (3, 0xA0, 0xBF)
  else if b == 0xED then some (3, 0x80, 0x9F)
  else if 0xE1 ≤ b && b < 0xF0 then some (3, 0x80, 0xBF)
  else if b == 0xF0 then some (4, 0x90, 0xBF)
  else if b == 0xF4 then some (4, 0x80, 0x8F)
  else if 0xF1 ≤ b && b < 0xF4 then some (4, 0x80, 0xBF)
  else none

/-- What is wrong at the start of bytes that begin with no whole character: how many bytes are at
fault, and why. None if a character can be read. -/
def utf8Fault? : List UInt8 → Option (Nat × String)
  | [] => none
  | lead :: rest =>
      match leadByte? lead with
      | none => some (1, "invalid start byte")
      | some (size, low, high) =>
          let wanted := rest.take (size - 1)
          let good :=
            match wanted with
            | [] => 0
            | second :: more =>
                if low ≤ second && second ≤ high then 1 + (more.takeWhile isContinuation).length
                else 0
          if good < wanted.length then some (1 + good, "invalid continuation byte")
          else if wanted.length + 1 < size then some (1 + good, "unexpected end of data")
          else none

/-- The first failure in bytes that are not all UTF-8, searched from a position on. -/
def utf8Failure : Nat → Nat → List UInt8 → DecodeError
  | 0, position, bytes => ⟨"utf-8", bytes.headD 0, position, position, "invalid start byte"⟩
  | fuel + 1, position, bytes =>
      match utf8Fault? bytes with
      | some (count, reason) =>
          ⟨"utf-8", bytes.headD 0, position, position + count - 1, reason⟩
      | none =>
          let size := ((bytes.head?.bind leadByte?).map (·.1)).getD 1
          utf8Failure fuel (position + size) (bytes.drop size)

/-- Reads bytes as UTF-8. -/
def ofUtf8 (bytes : List UInt8) : Except DecodeError String :=
  match String.fromUTF8? ⟨bytes.toArray⟩ with
  | some s => .ok s
  | none => .error (utf8Failure bytes.length 0 bytes)

/-- Stands in a text for half of a surrogate pair. -/
def replacement : Char := '\ufffd'

/-- The character of a code point. -/
def charOf (n : Nat) : Char := if n.isValidChar then Char.ofNat n else replacement

/-- The character of a surrogate pair. -/
def joinSurrogates (high low : Nat) : Char :=
  charOf (0x10000 + (high - 0xD800) * 0x400 + (low - 0xDC00))

/-- First half of a surrogate pair. -/
def isHighSurrogate (n : Nat) : Bool := 0xD800 ≤ n && n < 0xDC00

/-- Second half of a surrogate pair. -/
def isLowSurrogate (n : Nat) : Bool := 0xDC00 ≤ n && n < 0xE000

/-- The characters of UTF-16 units. -/
def ofUnits16 : List Nat → List Char
  | [] => []
  | [u] => [charOf u]
  | u :: v :: rest =>
      if isHighSurrogate u && isLowSurrogate v then joinSurrogates u v :: ofUnits16 rest
      else charOf u :: ofUnits16 (v :: rest)

/-- Whether the low byte of a unit comes first. -/
inductive ByteOrder where
  | little
  | big
deriving DecidableEq

/-- The number that bytes stand for. -/
def ByteOrder.value (order : ByteOrder) (bytes : List UInt8) : Nat :=
  let digits := match order with
    | .little => bytes.reverse
    | .big => bytes
  digits.foldl (fun n b => 256 * n + b.toNat) 0

/-- The suffix of an encoding's name. -/
def ByteOrder.name : ByteOrder → String
  | .little => "le"
  | .big => "be"

/-- Bytes in whole units of a size, and the bytes left over at the end. -/
def unitsOf (order : ByteOrder) (size : Nat) : Nat → List UInt8 → List Nat × List UInt8
  | 0, bytes => ([], bytes)
  | fuel + 1, bytes =>
      if size ≤ bytes.length then
        let (units, left) := unitsOf order size fuel (bytes.drop size)
        (order.value (bytes.take size) :: units, left)
      else ([], bytes)

/-- Reads bytes as UTF-16; the failure counts positions from `offset` on. -/
def ofUtf16 (order : ByteOrder) (offset : Nat) (bytes : List UInt8) : Except DecodeError String :=
  let (units, left) := unitsOf order 2 bytes.length bytes
  match left with
  | [] => .ok (String.ofList (ofUnits16 units))
  | b :: _ =>
      let position := offset + 2 * units.length
      .error ⟨"utf-16-" ++ order.name, b, position, position, "truncated data"⟩

/-- Reads bytes as UTF-32; the failure counts positions from `offset` on. -/
def ofUtf32 (order : ByteOrder) (offset : Nat) (bytes : List UInt8) : Except DecodeError String :=
  let (units, left) := unitsOf order 4 bytes.length bytes
  match units.findIdx? (· ≥ 0x110000) with
  | some i =>
      let position := offset + 4 * i
      .error ⟨"utf-32-" ++ order.name, (bytes.drop (4 * i)).headD 0, position, position + 3,
        "code point not in range(0x110000)"⟩
  | none =>
      match left with
      | [] => .ok (String.ofList (units.map charOf))
      | b :: _ =>
          let position := offset + 4 * units.length
          .error ⟨"utf-32-" ++ order.name, b, position, position + left.length - 1,
            "truncated data"⟩

/-- Reads bytes in the encoding that their first bytes show. -/
def ofUnknown (bytes : List UInt8) : Except DecodeError String :=
  match bytes with
  | 0x00 :: 0x00 :: 0xFE :: 0xFF :: rest => ofUtf32 .big 4 rest
  | 0xFF :: 0xFE :: 0x00 :: 0x00 :: rest => ofUtf32 .little 4 rest
  | 0xFE :: 0xFF :: rest => ofUtf16 .big 2 rest
  | 0xFF :: 0xFE :: rest => ofUtf16 .little 2 rest
  | 0xEF :: 0xBB :: 0xBF :: rest => ofUtf8 rest
  | [a, b] =>
      if a == 0 then ofUtf16 .big 0 bytes
      else if b == 0 then ofUtf16 .little 0 bytes
      else ofUtf8 bytes
  | a :: b :: c :: d :: _ =>
      if a == 0 then
        if b == 0 then ofUtf32 .big 0 bytes else ofUtf16 .big 0 bytes
      else if b == 0 then
        if c == 0 && d == 0 then ofUtf32 .little 0 bytes else ofUtf16 .little 0 bytes
      else ofUtf8 bytes
  | _ => ofUtf8 bytes

end Groundplan.Text
