import Groundplan.Datum.Basic
import Groundplan.Limits
import Groundplan.Text.Digits
import Groundplan.Text.Encoding

/-!
# Reading JSON text

Besides plain JSON the reader takes `NaN`, `Infinity` and `-Infinity`. A number with a point or an
exponent is a binary64 number, any other an integer. A key that comes again keeps its first place
and takes its last value. A failure says what was expected, and where. Reading breaks down at a
bracket that there is no room to go into.
-/

namespace Groundplan.Json

/-- What is wrong with a text. -/
inductive Reason where
  | expectingValue
  | expectingName
  | expectingColon
  | expectingComma
  | extraData
  | unterminatedText
  | controlCharacter
  | badEscape
  | badCodePoint
  | byteOrderMark
deriving DecidableEq

/-- The wording of a reason. -/
def Reason.message : Reason → String
  | .expectingValue => "Expecting value"
  | .expectingName => "Expecting property name enclosed in double quotes"
  | .expectingColon => "Expecting ':' delimiter"
  | .expectingComma => "Expecting ',' delimiter"
  | .extraData => "Extra data"
  | .unterminatedText => "Unterminated string starting at"
  | .controlCharacter => "Invalid control character at"
  | .badEscape => "Invalid \\escape"
  | .badCodePoint => "Invalid \\uXXXX escape"
  | .byteOrderMark => "Unexpected UTF-8 BOM (decode using utf-8-sig)"

/-- Where reading stopped: how much of the text was still unread there. -/
inductive Stop where
  | wrong (reason : Reason) (unread : Nat)
  | longNumeral (digits : Nat)
  | breakdown (cause : Breakdown)
deriving DecidableEq

/-- Why a text is not read. -/
inductive ReadFault where
  | wrong (reason : Reason) (line column position : Nat)
  | longNumeral (digits : Nat)
  | undecodable (error : Text.DecodeError)
  | breakdown (cause : Breakdown)
deriving DecidableEq

/-- The message about a number with too many digits. -/
def longNumeralMessage (digits : Nat) : String :=
  s!"Exceeds the limit ({Text.digitLimit} digits) for integer string conversion: " ++
    s!"value has {digits} digits; use sys.set_int_max_str_digits() to increase the limit"

/-- The message of a fault. -/
def ReadFault.message : ReadFault → String
  | .wrong reason line column position =>
      s!"{reason.message}: line {line} column {column} (char {position})"
  | .longNumeral digits => longNumeralMessage digits
  | .undecodable error => error.message
  | .breakdown cause => cause.message

/-- A fault with the place in the text that it was found at. -/
def Stop.locate (text : List Char) : Stop → ReadFault
  | .longNumeral digits => .longNumeral digits
  | .breakdown cause => .breakdown cause
  | .wrong reason unread =>
      let position := text.length - unread
      let before := text.take position
      let column := (before.reverse.takeWhile (· != '\n')).length + 1
      .wrong reason (before.count '\n' + 1) column position

/-- What follows the white space at the start of a text. -/
def skipBlank (cs : List Char) : List Char :=
  cs.dropWhile fun c => c == ' ' || c == '\t' || c == '\n' || c == '\r'

/-- The value of a hexadecimal digit. -/
def hexValue? (c : Char) : Option Nat :=
  if '0' ≤ c && c ≤ '9' then some (c.toNat - '0'.toNat)
  else if 'a' ≤ c && c ≤ 'f' then some (c.toNat - 'a'.toNat + 10)
  else if 'A' ≤ c && c ≤ 'F' then some (c.toNat - 'A'.toNat + 10)
  else none

/-- The value of four hexadecimal digits. -/
def hex4? (a b c d : Char) : Option Nat := do
  return (((← hexValue? a) * 16 + (← hexValue? b)) * 16 + (← hexValue? c)) * 16 + (← hexValue? d)

/-- The character that a letter after a backslash stands for. -/
def unescape? : Char → Option Char
  | '"' => some '"'
  | '\\' => some '\\'
  | '/' => some '/'
  | 'b' => some '\x08'
  | 'f' => some '\x0c'
  | 'n' => some '\n'
  | 'r' => some '\r'
  | 't' => some '\t'
  | _ => none

/-- The rest of a text in quotes, whose opening quote left `opened` characters unread. The characters
read so far come last first. -/
def textBody (opened : Nat) (done : List Char) :
    List Char → Except Stop (List Char × List Char)
  | [] => .error (.wrong .unterminatedText opened)
  | '"' :: rest => .ok (done.reverse, rest)
  | '\\' :: 'u' :: a :: b :: c :: d :: rest =>
      match hex4? a b c d with
      | none => .error (.wrong .badCodePoint (rest.length + 5))
      | some n =>
          match rest with
          | [] => .error (.wrong .badCodePoint 5)
          | '\\' :: 'u' :: p :: q :: r :: s :: more =>
              match hex4? p q r s with
              | some m =>
                  if Text.isHighSurrogate n && Text.isLowSurrogate m then
                    textBody opened (Text.joinSurrogates n m :: done) more
                  else textBody opened (Text.charOf n :: done) ('\\' :: 'u' :: p :: q :: r :: s :: more)
              | none => .error (.wrong .badCodePoint (more.length + 5))
          | next :: more => textBody opened (Text.charOf n :: done) (next :: more)
  | '\\' :: 'u' :: rest => .error (.wrong .badCodePoint (rest.length + 1))
  | ['\\'] => .error (.wrong .unterminatedText opened)
  | '\\' :: e :: rest =>
      match unescape? e with
      | some c => textBody opened (c :: done) rest
      | none => .error (.wrong .badEscape (rest.length + 2))
  | c :: rest =>
      if c.toNat < 0x20 then .error (.wrong .controlCharacter (rest.length + 1))
      else textBody opened (c :: done) rest

/-- The number that ASCII digits stand for. -/
def numberOf (digits : List Char) : Nat :=
  digits.foldl (fun n c => 10 * n + (c.toNat - '0'.toNat)) 0

/-- A point with at least one digit after it: the digits, and what follows them. -/
def fraction? : List Char → Option (List Char × List Char)
  | '.' :: rest =>
      match rest.takeWhile Char.isDigit with
      | [] => none
      | digits => some (digits, rest.dropWhile Char.isDigit)
  | _ => none

/-- An exponent with at least one digit: its value, and what follows it. -/
def exponent? : List Char → Option (Int × List Char)
  | e :: rest =>
      if e == 'e' || e == 'E' then
        let (negative, digits) :=
          match rest with
          | '-' :: more => (true, more)
          | '+' :: more => (false, more)
          | _ => (false, rest)
        match digits.takeWhile Char.isDigit with
        | [] => none
        | ds =>
            let n : Int := numberOf ds
            some (if negative then -n else n, digits.dropWhile Char.isDigit)
      else none
  | [] => none

/-- The digits that a number starts with; none follows a zero. -/
def wholeDigits : List Char → List Char
  | '0' :: _ => ['0']
  | cs => cs.takeWhile Char.isDigit

/-- A number of which the sign and the digits before the point are read. -/
def afterWhole (negative : Bool) (whole cs : List Char) : Except Stop (Datum × List Char) :=
  let fraction := fraction? cs
  let afterFraction := (fraction.map (·.2)).getD cs
  let exponent := exponent? afterFraction
  let rest := (exponent.map (·.2)).getD afterFraction
  match fraction, exponent with
  | none, none =>
      if whole.length > Text.digitLimit then .error (.longNumeral whole.length)
      else
        let n : Int := numberOf whole
        .ok (.int (if negative then -n else n), rest)
  | _, _ =>
      let places := (fraction.map (·.1)).getD []
      let power := (exponent.map (·.1)).getD 0
      let decimal : Decimal := ⟨numberOf (whole ++ places), power - places.length⟩
      .ok (.scalar (.float (Binary64.ofDecimal negative decimal)), rest)

/-- A number at the start of a text. -/
def number (cs : List Char) : Except Stop (Datum × List Char) :=
  let (negative, body) :=
    match cs with
    | '-' :: rest => (true, rest)
    | _ => (false, cs)
  let whole := wholeDigits body
  if whole.isEmpty then .error (.wrong .expectingValue cs.length)
  else afterWhole negative whole (body.drop whole.length)

mutual
/-- A value at the start of a text. The first argument bounds the depth and length of the search: a
bracket takes two units, one for itself and one for what comes first in it, so that twice the length
of the text and one more is always enough. -/
def value : Nat → Room → List Char → Except Stop (Datum × List Char)
  | 0, _, cs => .error (.wrong .expectingValue cs.length)
  | fuel + 1, room, cs =>
      match cs with
      | '"' :: rest =>
          match textBody cs.length [] rest with
          | .ok (text, rest) => .ok (.text (String.ofList text), rest)
          | .error stop => .error stop
      | '\x7b' :: rest =>
          match room.enter .object with
          | .error cause => .error (.breakdown cause)
          | .ok room =>
              match skipBlank rest with
              | '\x7d' :: rest => .ok (.mapping false [], rest)
              | rest => members fuel room [] rest
      | '[' :: rest =>
          match room.enter .array with
          | .error cause => .error (.breakdown cause)
          | .ok room =>
              match skipBlank rest with
              | ']' :: rest => .ok (.list [], rest)
              | rest => elements fuel room [] rest
      | 'n' :: 'u' :: 'l' :: 'l' :: rest => .ok (.null, rest)
      | 't' :: 'r' :: 'u' :: 'e' :: rest => .ok (.bool true, rest)
      | 'f' :: 'a' :: 'l' :: 's' :: 'e' :: rest => .ok (.bool false, rest)
      | 'N' :: 'a' :: 'N' :: rest => .ok (.scalar (.float (.nan 0)), rest)
      | 'I' :: 'n' :: 'f' :: 'i' :: 'n' :: 'i' :: 't' :: 'y' :: rest =>
          .ok (.scalar (.float (.infinity false)), rest)
      | '-' :: 'I' :: 'n' :: 'f' :: 'i' :: 'n' :: 'i' :: 't' :: 'y' :: rest =>
          .ok (.scalar (.float (.infinity true)), rest)
      | _ => number cs

/-- The members of an object from the next name on, after those in `done`. -/
def members : Nat → Room → Entries Datum → List Char → Except Stop (Datum × List Char)
  | 0, _, _, cs => .error (.wrong .expectingName cs.length)
  | fuel + 1, room, done, cs =>
      match cs with
      | '"' :: rest =>
          match textBody cs.length [] rest with
          | .error stop => .error stop
          | .ok (name, rest) =>
              match skipBlank rest with
              | ':' :: rest =>
                  match value fuel room (skipBlank rest) with
                  | .error stop => .error stop
                  | .ok (d, rest) =>
                      let done := done.set (.text (String.ofList name)) d
                      match skipBlank rest with
                      | '\x7d' :: rest => .ok (.mapping false done, rest)
                      | ',' :: rest => members fuel room done (skipBlank rest)
                      | rest => .error (.wrong .expectingComma rest.length)
              | rest => .error (.wrong .expectingColon rest.length)
      | _ => .error (.wrong .expectingName cs.length)

/-- The items of an array from the next one on, after those in `done`, which come last first. -/
def elements : Nat → Room → List Datum → List Char → Except Stop (Datum × List Char)
  | 0, _, _, cs => .error (.wrong .expectingValue cs.length)
  | fuel + 1, room, done, cs =>
      match value fuel room cs with
      | .error stop => .error stop
      | .ok (d, rest) =>
          match skipBlank rest with
          | ']' :: rest => .ok (.list (d :: done).reverse, rest)
          | ',' :: rest => elements fuel room (d :: done) (skipBlank rest)
          | rest => .error (.wrong .expectingComma rest.length)
end

/-- The one value that a text holds. -/
def whole (room : Room) (cs : List Char) : Except Stop Datum :=
  match value (2 * cs.length + 1) room (skipBlank cs) with
  | .error stop => .error stop
  | .ok (d, rest) =>
      match skipBlank rest with
      | [] => .ok d
      | rest => .error (.wrong .extraData rest.length)

/-- Reads characters that may start with anything. -/
def readChars (room : Room) (cs : List Char) : Except ReadFault Datum :=
  match whole room cs with
  | .ok d => .ok d
  | .error stop => .error (stop.locate cs)

/-- Reads a text, which must not start with a byte order mark, with room for so many brackets one
inside the other. -/
def readWithin (room : Room) (s : String) : Except ReadFault Datum :=
  match s.toList with
  | '\ufeff' :: _ => .error (.wrong .byteOrderMark 1 1 0)
  | cs => readChars room cs

/-- Reads a text however deep its brackets are. -/
def read (s : String) : Except ReadFault Datum := readWithin none s

/-- Reads bytes in the encoding that they show, with room for so many brackets one inside the
other. -/
def readBytesWithin (room : Room) (bytes : List UInt8) : Except ReadFault Datum :=
  match Text.ofUnknown bytes with
  | .ok s => readChars room s.toList
  | .error e => .error (.undecodable e)

/-- Reads bytes however deep the brackets in them are. -/
def readBytes (bytes : List UInt8) : Except ReadFault Datum := readBytesWithin none bytes

end Groundplan.Json
