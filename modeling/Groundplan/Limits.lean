import Groundplan.Text.Digits

/-!
# Limits

What a machine sets limits to: how many digits of an integer it shows, and how many containers deep
it goes. Where a limit is passed, work breaks down, whatever is sound or unsound about what it is
done on.
-/

namespace Groundplan

/-- What goes down into containers: the check, the resolution and the freezing of values, and the
reader of JSON at an array or at an object. -/
inductive Descent where
  | values
  | array
  | object
deriving DecidableEq

/-- How work breaks down: an integer has more digits than are shown, or containers are nested deeper
than there is room for. -/
inductive Breakdown where
  | longNumeral (digits : Nat)
  | tooDeep (descent : Descent)
deriving DecidableEq

namespace Descent

/-- How a message about the depth ends. -/
def message : Descent → String
  | .values => "in comparison"
  | .array => "while decoding a JSON array from a unicode string"
  | .object => "while decoding a JSON object from a unicode string"

end Descent

namespace Breakdown

/-- The kind of failure that a breakdown is. -/
def kind : Breakdown → String
  | .longNumeral _ => "ValueError"
  | .tooDeep _ => "RecursionError"

/-- The message of a breakdown. -/
def message : Breakdown → String
  | .longNumeral digits =>
      s!"Exceeds the limit ({digits} digits) for integer string conversion; " ++
        "use sys.set_int_max_str_digits() to increase the limit"
  | .tooDeep descent => "maximum recursion depth exceeded " ++ descent.message

end Breakdown

/-- How many more containers there is room to go down into; nothing means that there is no end to
it. -/
abbrev Room := Option Nat

/-- The room inside a container, if there is room for one. -/
def Room.enter (descent : Descent) : Room → Except Breakdown Room
  | none => .ok none
  | some 0 => .error (.tooDeep descent)
  | some (n + 1) => .ok (some n)

/-- Whether there is room for so many containers one inside the other. -/
def Room.allows (room : Room) (depth : Nat) : Bool := room.all fun n => decide (depth ≤ n)

/-- The limits of a machine: the most digits of an integer that it shows, and the room for checking,
for resolving, for freezing and for reading. Nothing means that there is no limit. -/
structure Limits where
  digits : Option Nat := none
  checking : Room := none
  resolving : Room := none
  freezing : Room := none
  reading : Room := none
deriving DecidableEq

/-- The limits that programs run under, with some room taken up before they begin. -/
def Limits.usual : Limits where
  digits := some Text.digitLimit
  checking := some 950
  resolving := some 475
  freezing := some 475
  reading := some 950

/-- There is always room where there is no end to it. -/
@[simp] theorem Room.enter_none (descent : Descent) : Room.enter descent none = .ok none := rfl

end Groundplan
