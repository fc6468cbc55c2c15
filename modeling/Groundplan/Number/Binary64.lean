/-!
# Binary64 numbers

A binary64 number is a sign and a *rank*, its place in the increasing sequence of the non-negative
numbers of that format: zero has rank `0` and infinity the last one. A finite number is a whole
number of units of `2 ^ (-1074)`, and `units` is that number for each rank. Rounding therefore
compares whole numbers only, and two numbers of one sign are equal exactly if their ranks are.

The numbers that stand for no number carry a payload. Comparing by value never finds two of them
equal; the payload tells which of them are one and the same.
-/

namespace Groundplan

namespace Binary64

/-- The rank of infinity; every finite number ranks below it. -/
def infinityRank : Nat := 0x7FF0000000000000

end Binary64

/-- A binary64 number. -/
inductive Binary64 where
  | nan (payload : Nat)
  | signed (negative : Bool) (rank : Fin (Binary64.infinityRank + 1))
deriving DecidableEq

namespace Binary64

/-- Numbers below this rank lie one unit apart and have no leading bit of their own. -/
def binade : Nat := Nat.pow 2 52

/-- How many units of `2 ^ (-1074)` make one. -/
def unitsPerOne : Nat := Nat.pow 2 1074

/-- The size of the number of a rank, in units of `2 ^ (-1074)`. -/
def units (rank : Nat) : Nat :=
  if rank < binade then rank
  else (binade + rank % binade) * Nat.pow 2 (rank / binade - 1)

/-- The greatest rank whose number is at most `u` units. -/
def rankBelow (u : Nat) : Nat :=
  if u < 2 * binade then u
  else
    let shift := u.log2 - 52
    shift * binade + u / Nat.pow 2 shift

/-- The rank nearest to `numerator / denominator` units; of two equally near the even one. -/
def nearestRank (numerator denominator : Nat) : Nat :=
  let low := rankBelow (numerator / denominator)
  if infinityRank ≤ low then infinityRank
  else
    match compare (2 * numerator) ((units low + units (low + 1)) * denominator) with
    | .lt => low
    | .gt => low + 1
    | .eq => if low % 2 = 0 then low else low + 1

/-- The number of a sign and a rank; ranks beyond infinity are infinite. -/
def ofRank (negative : Bool) (rank : Nat) : Binary64 :=
  .signed negative ⟨min rank infinityRank, Nat.lt_succ_of_le (Nat.min_le_right ..)⟩

/-- Zero. -/
def zero : Binary64 := ofRank false 0

/-- One. -/
def one : Binary64 := ofRank false (1023 * binade)

/-- Infinity of either sign. -/
def infinity (negative : Bool) : Binary64 := ofRank negative infinityRank

/-- Neither infinite nor a number that stands for no number. -/
def isFinite : Binary64 → Bool
  | .nan _ => false
  | .signed _ rank => rank.val < infinityRank

/-- The value of a finite number in units of `2 ^ (-1074)`. -/
def signedUnits? : Binary64 → Option Int
  | .nan _ => none
  | .signed negative rank =>
      if rank.val < infinityRank then
        some (if negative then -(units rank.val : Int) else (units rank.val : Int))
      else none

/-- Equality of value: both zeros are equal, and what stands for no number equals nothing. -/
def eqValue : Binary64 → Binary64 → Bool
  | .signed s r, .signed t q => r == q && (s == t || r.val == 0)
  | _, _ => false

/-- Equality of value with an integer, without rounding it. -/
def eqInt (x : Binary64) (i : Int) : Bool :=
  x.signedUnits? == some (i * (unitsPerOne : Int))

/-- Value and finiteness go together. -/
theorem signedUnits?_isSome (x : Binary64) : x.signedUnits?.isSome = x.isFinite := by
  cases x with
  | nan => rfl
  | signed s r => by_cases h : r.val < infinityRank <;> simp [signedUnits?, isFinite, h]

/-- A signed number has its own value. -/
theorem eqValue_self (s : Bool) (r : Fin (infinityRank + 1)) :
    eqValue (.signed s r) (.signed s r) = true := by
  simp [eqValue]

end Binary64

end Groundplan
