import Groundplan.Datum.Basic
import Groundplan.Limits
import Groundplan.Text.Quoted

/-!
# Data in messages

The name of a datum's type and its text in a message: texts are quoted there unless the datum itself
is a text that a message takes in plainly. What a reference or an entity looks like depends on the
tree it belongs to, so a `Naming` says it. No text can be made where an integer in it has more digits
than are shown.
-/

namespace Groundplan

/-- What references and entities look like in a message, whether an integer in that has more digits
than are shown, and how many are. -/
structure Naming where
  reference : Reference → String
  entity : Entity → String
  isLongReference : Reference → Bool := fun _ => false
  isLongEntity : Entity → Bool := fun _ => false
  digits : Option Nat := none

/-- The name of an entity's type. -/
def Entity.typeName : Entity → String
  | .object _ => "object"
  | .app _ => "App"
  | .node _ true => "Stack"
  | .node _ false => "ConstructNode"

/-- A naming that knows no tree and falls back on the names of types. -/
def Naming.bare : Naming where
  reference r := "Reference(" ++ Text.quoted r.attr ++ ")"
  entity e := e.typeName

/-- The name of a container's type. -/
def Container.typeName : Container → String
  | .list => "list"
  | .tuple => "tuple"
  | .mapping => "dict"
  | .view => "mappingproxy"

/-- The kind of a sequence. -/
def Container.ofSequence (fixed : Bool) : Container := if fixed then .tuple else .list

/-- The kind of a mapping. -/
def Container.ofMapping (fixed : Bool) : Container := if fixed then .view else .mapping

/-- The name of a scalar's type. -/
def Scalar.typeName : Scalar → String
  | .null => "NoneType"
  | .bool _ => "bool"
  | .int _ => "int"
  | .float _ => "float"
  | .text _ => "str"

/-- The name of an atom's type. -/
def Atom.typeName : Atom → String
  | .scalar s => s.typeName
  | .reference _ => "Reference"
  | .bytes _ => "bytes"
  | .set _ => "set"
  | .entity e => e.typeName

/-- The name of a key's type. -/
def Key.typeName : Key → String
  | .scalar s => s.typeName
  | .bytes _ => "bytes"
  | .tuple _ => "tuple"
  | .reference _ => "Reference"
  | .entity e => e.typeName

/-- The name of a datum's type. -/
def Datum.typeName : Datum → String
  | .atom a => a.typeName
  | .loop c => c.typeName
  | .sequence fixed _ => (Container.ofSequence fixed).typeName
  | .mapping fixed _ => (Container.ofMapping fixed).typeName

/-- The decimal digits of an integer with a sign if it is negative. -/
def intChars (i : Int) : List Char :=
  if i < 0 then '-' :: Nat.toDigits 10 i.natAbs else Nat.toDigits 10 i.natAbs

/-- The decimal text of an integer. -/
def intText (i : Int) : String := String.ofList (intChars i)

/-- The text of a scalar, quoted if it is a text. -/
def Scalar.display : Scalar → String
  | .null => "None"
  | .bool true => "True"
  | .bool false => "False"
  | .int i => intText i
  | .float x => x.text
  | .text s => Text.quoted s

/-- Texts set between commas. -/
def commaJoined (texts : List String) : String := ", ".intercalate texts

/-- A tuple in parentheses; a single item has a comma after it. -/
def tupleText : List String → String
  | [item] => "(" ++ item ++ ",)"
  | items => "(" ++ commaJoined items ++ ")"

/-- Texts in braces. -/
def braced (texts : List String) : String := "\x7b" ++ commaJoined texts ++ "\x7d"

/-- The marks of a read-only view around the text of its mapping. -/
def viewText (mapping : String) : String := "mappingproxy(" ++ mapping ++ ")"

namespace Naming

/-- Whether a scalar is an integer with more digits than are shown. -/
def isLong (naming : Naming) : Scalar → Bool
  | .int i => naming.digits.any fun n => Nat.pow 10 n ≤ i.natAbs
  | _ => false

/-- A text, unless an integer in it is too long. -/
def shown (naming : Naming) (isLong : Bool) (text : String) : Except Breakdown String :=
  match naming.digits with
  | some n => if isLong then .error (.longNumeral n) else .ok text
  | none => .ok text

end Naming

namespace Key

mutual
/-- The text of a key, quoted if it is a text. -/
def display (naming : Naming) : Key → String
  | .scalar s => s.display
  | .bytes b => Text.quotedBytes b
  | .tuple items => tupleText (displayAll naming items)
  | .reference r => naming.reference r
  | .entity e => naming.entity e

/-- The texts of keys. -/
def displayAll (naming : Naming) : List Key → List String
  | [] => []
  | k :: ks => display naming k :: displayAll naming ks
end

/-- The text of a key as a message takes it in. -/
def plain (naming : Naming) : Key → String
  | .scalar (.text s) => s
  | k => k.display naming

mutual
/-- Whether an integer in the text of a key has more digits than are shown. -/
def isLong (naming : Naming) : Key → Bool
  | .scalar s => naming.isLong s
  | .bytes _ => false
  | .tuple items => anyIsLong naming items
  | .reference r => naming.isLongReference r
  | .entity e => naming.isLongEntity e

/-- Whether one in the text of any key has. -/
def anyIsLong (naming : Naming) : List Key → Bool
  | [] => false
  | k :: ks => isLong naming k || anyIsLong naming ks
end

/-- The text of a key, quoted if it is a text, if it can be made. -/
def shown (naming : Naming) (k : Key) : Except Breakdown String :=
  naming.shown (k.isLong naming) (k.display naming)

/-- The text of a key as a message takes it in, if it can be made. -/
def shownPlain (naming : Naming) (k : Key) : Except Breakdown String :=
  naming.shown (k.isLong naming) (k.plain naming)

end Key

/-- The text of an atom, quoted if it is a text. -/
def Atom.display (naming : Naming) : Atom → String
  | .scalar s => s.display
  | .reference r => naming.reference r
  | .bytes b => Text.quotedBytes b
  | .set [] => "set()"
  | .set elements => braced (elements.map (Key.display naming))
  | .entity e => naming.entity e

namespace Datum

mutual
/-- The text of a datum, quoted if it is a text. -/
def display (naming : Naming) : Datum → String
  | .atom a => a.display naming
  | .loop .list => "[...]"
  | .loop .tuple => "(...)"
  | .loop .mapping => "\x7b...\x7d"
  | .loop .view => viewText "\x7b...\x7d"
  | .sequence true items => tupleText (displayItems naming items)
  | .sequence false items => "[" ++ commaJoined (displayItems naming items) ++ "]"
  | .mapping true es => viewText (braced (displayEntries naming es))
  | .mapping false es => braced (displayEntries naming es)

/-- The texts of items. -/
def displayItems (naming : Naming) : List Datum → List String
  | [] => []
  | d :: ds => display naming d :: displayItems naming ds

/-- The texts of entries. -/
def displayEntries (naming : Naming) : List (Key × Datum) → List String
  | [] => []
  | (k, d) :: es => (k.display naming ++ ": " ++ display naming d) :: displayEntries naming es
end

/-- The text of a datum as a message takes it in. -/
def plain (naming : Naming) : Datum → String
  | .atom (.scalar (.text s)) => s
  | d => d.display naming

mutual
/-- Whether an integer in the text of a datum has more digits than are shown. -/
def isLong (naming : Naming) : Datum → Bool
  | .atom (.scalar s) => naming.isLong s
  | .atom (.reference r) => naming.isLongReference r
  | .atom (.bytes _) => false
  | .atom (.set elements) => Key.anyIsLong naming elements
  | .atom (.entity e) => naming.isLongEntity e
  | .loop _ => false
  | .sequence _ items => anyIsLong naming items
  | .mapping _ es => anyEntryIsLong naming es

/-- Whether one in the text of any item has. -/
def anyIsLong (naming : Naming) : List Datum → Bool
  | [] => false
  | d :: ds => isLong naming d || anyIsLong naming ds

/-- Whether one in the text of any entry has. -/
def anyEntryIsLong (naming : Naming) : List (Key × Datum) → Bool
  | [] => false
  | (k, d) :: es => k.isLong naming || isLong naming d || anyEntryIsLong naming es
end

/-- The text of a datum, quoted if it is a text, if it can be made. -/
def shown (naming : Naming) (d : Datum) : Except Breakdown String :=
  naming.shown (d.isLong naming) (d.display naming)

end Datum

end Groundplan
