import Groundplan.Number.Binary64

/-!
# Decimal text of binary64 numbers

A `Decimal` is `digits · 10 ^ exponent`. Reading rounds to the nearest number, half to even. Writing
takes the fewest digits that read back as the number, of those the nearest; the seventeen digits it
looks at always suffice, and the exact expansion stands behind them so that reading back never
depends on that fact.
-/

namespace Groundplan

/-- The decimal `digits · 10 ^ exponent`. -/
structure Decimal where
  digits : Nat
  exponent : Int
deriving DecidableEq

namespace Decimal

/-- How many decimal digits a number has. -/
def digitCount (n : Nat) : Nat := (Nat.toDigits 10 n).length

/-- Decimals of this many digits before the point, or zeros after it, are out of every range. -/
def farAway : Int := 400

/-- The rank of the binary64 number nearest to a decimal. -/
def rank (d : Decimal) : Nat :=
  if d.digits = 0 then 0
  else
    let size := d.exponent + digitCount d.digits
    if size > farAway then Binary64.infinityRank
    else if size < -farAway then 0
    else if d.exponent ≥ 0 then
      Binary64.nearestRank (d.digits * Nat.pow 10 d.exponent.toNat * Binary64.unitsPerOne) 1
    else
      Binary64.nearestRank (d.digits * Binary64.unitsPerOne) (Nat.pow 10 (-d.exponent).toNat)

/-- Both neighbours of a number on the grid of decimals with `count` digits, that below first, and
how the number lies between them: less than half way up, half way, or more. -/
def neighbours (units : Nat) (count : Nat) : Decimal × Decimal × Ordering :=
  let leading : Int := digitCount (units * Nat.pow 10 400 / Binary64.unitsPerOne) - 401
  let grid : Int := leading - count + 1
  let numerator := if grid ≥ 0 then units else units * Nat.pow 10 (-grid).toNat
  let denominator :=
    if grid ≥ 0 then Binary64.unitsPerOne * Nat.pow 10 grid.toNat else Binary64.unitsPerOne
  let below := numerator / denominator
  (⟨below, grid⟩, ⟨below + 1, grid⟩, compare (2 * (numerator % denominator)) denominator)

/-- Of two neighbours of a number that one which reads back as its rank, of both the nearer. -/
def readingBack? (rank : Nat) : Decimal × Decimal × Ordering → Option Decimal
  | (below, above, half) =>
      match below.rank == rank, above.rank == rank with
      | true, true =>
          match half with
          | .lt => some below
          | .gt => some above
          | .eq => if below.digits % 2 = 0 then some below else some above
      | true, false => some below
      | false, true => some above
      | false, false => none

/-- The nearer decimal with `count` digits that reads back as the rank, if there is one. -/
def ofRankWith? (rank : Nat) (count : Nat) : Option Decimal :=
  readingBack? rank (neighbours (Binary64.units rank) count)

/-- How many digits after the point a unit has. -/
def unitPlaces : Nat := 1074

/-- The exact decimal expansion of the number of a rank. -/
def exact (rank : Nat) : Decimal := ⟨Binary64.units rank * Nat.pow 5 unitPlaces, -(unitPlaces : Int)⟩

/-- The decimal that a finite number is written as. -/
def shortest (rank : Nat) : Decimal :=
  ((List.range 17).findSome? fun i => ofRankWith? rank (i + 1)).getD (exact rank)

/-- Decimals with an exponent from `-4` up to `15` are written without one. -/
def isPositional (exponent : Int) : Bool := -4 ≤ exponent && exponent < 16

/-- The digits of a decimal without trailing zeros, and the exponent of the first digit. -/
def significant (d : Decimal) : List Char × Int :=
  let all := Nat.toDigits 10 d.digits
  ((all.reverse.dropWhile (· == '0')).reverse, d.exponent + all.length - 1)

/-- An exponent with its sign and at least two digits. -/
def exponentChars (e : Int) : List Char :=
  let digits := Nat.toDigits 10 e.natAbs
  (if e < 0 then '-' else '+') :: (if digits.length < 2 then '0' :: digits else digits)

/-- The text of a decimal other than zero: a point always stands in the positional form. -/
def chars (d : Decimal) : List Char :=
  let (digits, leading) := d.significant
  if isPositional leading then
    if leading < 0 then
      '0' :: '.' :: (List.replicate (-leading - 1).toNat '0' ++ digits)
    else
      let whole := leading.toNat + 1
      let fraction := digits.drop whole
      digits.take whole ++ List.replicate (whole - digits.length) '0' ++
        '.' :: (if fraction.isEmpty then ['0'] else fraction)
  else
    match digits with
    | [] => ['0']
    | [d] => d :: 'e' :: exponentChars leading
    | d :: rest => d :: '.' :: (rest ++ 'e' :: exponentChars leading)

end Decimal

namespace Binary64

/-- The number nearest to a decimal, with the sign given. -/
def ofDecimal (negative : Bool) (d : Decimal) : Binary64 := ofRank negative d.rank

/-- How the three values without digits are spelt. -/
structure Spelling where
  nan : String
  infinity : String
  negativeInfinity : String

/-- The spelling used in messages. -/
def lowerCase : Spelling := ⟨"nan", "inf", "-inf"⟩

/-- The text of a number. -/
def chars (spelling : Spelling) : Binary64 → List Char
  | .nan _ => spelling.nan.toList
  | .signed negative rank =>
      if rank.val < infinityRank then
        (if negative then ['-'] else []) ++
          if rank.val = 0 then ['0', '.', '0'] else (Decimal.shortest rank.val).chars
      else (if negative then spelling.negativeInfinity else spelling.infinity).toList

/-- The text of a number in messages. -/
def text (x : Binary64) : String := String.ofList (x.chars lowerCase)

end Binary64

end Groundplan
