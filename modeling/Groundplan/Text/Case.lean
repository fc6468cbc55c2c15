/-!
# Letter case

Case maps for texts that are only compared with names in ASCII. Beyond the ASCII letters they change
the few characters whose other case is a single ASCII letter; all else stays as it is, and so never
equals a letter of such a name.
-/

namespace Groundplan.Text

/-- The capital of a letter, as far as capitals in ASCII are concerned. -/
def toCapital (c : Char) : Char :=
  if c == 'ı' then 'I' else if c == 'ſ' then 'S' else c.toUpper

/-- The small form of a letter, as far as small letters in ASCII are concerned. -/
def toSmall (c : Char) : Char :=
  if c == '\u212a' then 'k' else c.toLower

/-- A text in capitals. -/
def capitals (s : String) : String := s.map toCapital

/-- A text in small letters. -/
def smalls (s : String) : String := s.map toSmall

end Groundplan.Text
