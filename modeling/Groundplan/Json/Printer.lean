import Groundplan.Datum.Display

/-!
# JSON text of data

A datum is written from left to right. Where something has no JSON form, or a container stands inside
itself, writing stops; what was written up to there is kept, because a file may already hold it. Keys
that are null, truth values or numbers are written as texts. On one line, items are set apart by a
comma and a space; over several lines, by a comma and a line break with the indentation of the depth.
-/

namespace Groundplan

/-- Why writing stopped. -/
inductive WriteFault where
  | noForm (typeName : String)
  | badKey (typeName : String)
  | longNumeral
  | circular
deriving DecidableEq

/-- The message of a fault. -/
def WriteFault.message : WriteFault → String
  | .noForm typeName => s!"Object of type {typeName} is not JSON serializable"
  | .badKey typeName => s!"keys must be str, int, float, bool or None, not {typeName}"
  | .longNumeral => (Breakdown.longNumeral Text.digitLimit).message
  | .circular => "Circular reference detected"

/-- What was written, and why no more was. -/
structure Draft where
  written : List Char
  fault : Option WriteFault
deriving DecidableEq

namespace Draft

/-- Text that is complete. -/
def ofChars (cs : List Char) : Draft := ⟨cs, none⟩

/-- Nothing but a fault. -/
def stop (fault : WriteFault) : Draft := ⟨[], some fault⟩

/-- Goes on writing unless something stopped it before. -/
def append (a b : Draft) : Draft :=
  match a.fault with
  | some _ => a
  | none => ⟨a.written ++ b.written, b.fault⟩

instance : Append Draft := ⟨append⟩

/-- The whole text, unless writing stopped. -/
def result (d : Draft) : Except WriteFault String :=
  match d.fault with
  | some fault => .error fault
  | none => .ok (String.ofList d.written)

end Draft

namespace Json

/-- Whether a text is set on one line, or over several with a unit of indentation. -/
inductive Layout where
  | oneLine
  | lines (unit : List Char)
deriving DecidableEq

/-- Lines indented by a number of spaces; by none if it is negative, and on one line for zero. -/
def Layout.ofSpaces (n : Int) : Layout :=
  if n = 0 then .oneLine else .lines (List.replicate n.toNat ' ')

/-- The line break before an item at a depth. -/
def Layout.break (layout : Layout) (depth : Nat) : List Char :=
  match layout with
  | .oneLine => []
  | .lines unit => '\n' :: (List.replicate depth unit).flatten

/-- What stands between two items at a depth. -/
def Layout.comma (layout : Layout) (depth : Nat) : List Char :=
  match layout with
  | .oneLine => [',', ' ']
  | .lines _ => ',' :: layout.break depth

/-- One character within a text. -/
def escape (c : Char) : List Char :=
  if c == '"' then ['\\', '"']
  else if c == '\\' then ['\\', '\\']
  else if c == '\n' then ['\\', 'n']
  else if c == '\r' then ['\\', 'r']
  else if c == '\t' then ['\\', 't']
  else if c.toNat == 8 then ['\\', 'b']
  else if c.toNat == 12 then ['\\', 'f']
  else if c.toNat < 0x20 then '\\' :: 'u' :: Text.hexDigits 4 c.toNat
  else [c]

/-- A text in its quotes. -/
def textChars (s : String) : List Char := '"' :: (s.toList.flatMap escape ++ ['"'])

/-- How numbers without digits are spelt. -/
def spelling : Binary64.Spelling := ⟨"NaN", "Infinity", "-Infinity"⟩

/-- A scalar. -/
def scalarChars : Scalar → List Char
  | .null => "null".toList
  | .bool true => "true".toList
  | .bool false => "false".toList
  | .int i => intChars i
  | .float x => x.chars spelling
  | .text s => textChars s

/-- Whether a scalar is an integer with more digits than are ever written. -/
def isLong : Scalar → Bool
  | .int i => Text.digitLimit < (Nat.toDigits 10 i.natAbs).length
  | _ => false

mutual
/-- Whether the text of a key takes in an integer with more digits than are ever written. -/
def keyHasLong : Key → Bool
  | .scalar s => isLong s
  | .tuple items => keysHaveLong items
  | _ => false

/-- Whether the text of any key does. -/
def keysHaveLong : List Key → Bool
  | [] => false
  | k :: ks => keyHasLong k || keysHaveLong ks
end

mutual
/-- Whether the text of a datum takes in an integer with more digits than are ever written. -/
def hasLong : Datum → Bool
  | .atom (.scalar s) => isLong s
  | .atom (.set elements) => keysHaveLong elements
  | .atom _ => false
  | .loop _ => false
  | .sequence _ items => itemsHaveLong items
  | .mapping _ es => entriesHaveLong es

/-- Whether the text of any item does. -/
def itemsHaveLong : List Datum → Bool
  | [] => false
  | d :: ds => hasLong d || itemsHaveLong ds

/-- Whether the text of any entry does. -/
def entriesHaveLong : List (Key × Datum) → Bool
  | [] => false
  | (k, d) :: es => keyHasLong k || hasLong d || entriesHaveLong es
end

/-- A scalar, unless it has too many digits. -/
def scalarDraft (s : Scalar) : Draft :=
  if isLong s then .stop .longNumeral else .ofChars (scalarChars s)

/-- A key, always in quotes. -/
def keyDraft : Key → Draft
  | .scalar (.text s) => .ofChars (textChars s)
  | .scalar s =>
      if isLong s then .stop .longNumeral else .ofChars ('"' :: (scalarChars s ++ ['"']))
  | k => .stop (.badKey k.typeName)

/-- What stands before an item of a sequence. An integer with too many digits leaves that out as
well. -/
def leadDraft (before : List Char) : Datum → Draft
  | .atom (.scalar s) => if isLong s then .stop .longNumeral else .ofChars before
  | _ => .ofChars before

mutual
/-- A datum at a depth. -/
def draft (layout : Layout) (depth : Nat) : Datum → Draft
  | .atom (.scalar s) => scalarDraft s
  | .atom a => .stop (.noForm a.typeName)
  | .loop .view => .stop (.noForm Container.view.typeName)
  | .loop _ => .stop .circular
  | .sequence _ [] => .ofChars ['[', ']']
  | .sequence _ (d :: ds) =>
      leadDraft ('[' :: layout.break (depth + 1)) d ++ draft layout (depth + 1) d ++
        itemsDraft layout depth ds
  | .mapping true _ => .stop (.noForm Container.view.typeName)
  | .mapping false [] => .ofChars ['\x7b', '\x7d']
  | .mapping false ((k, d) :: es) =>
      .ofChars ('\x7b' :: layout.break (depth + 1)) ++ keyDraft k ++ .ofChars [':', ' '] ++
        draft layout (depth + 1) d ++ entriesDraft layout depth es

/-- The items after the first, and the closing bracket. -/
def itemsDraft (layout : Layout) (depth : Nat) : List Datum → Draft
  | [] => .ofChars (layout.break depth ++ [']'])
  | d :: ds =>
      leadDraft (layout.comma (depth + 1)) d ++ draft layout (depth + 1) d ++
        itemsDraft layout depth ds

/-- The entries after the first, and the closing brace. A bad key leaves no comma before it. -/
def entriesDraft (layout : Layout) (depth : Nat) : List (Key × Datum) → Draft
  | [] => .ofChars (layout.break depth ++ ['\x7d'])
  | (k, d) :: es =>
      (match (keyDraft k).fault with
        | some fault => Draft.stop fault
        | none => .ofChars (layout.comma (depth + 1)) ++ keyDraft k) ++
        .ofChars [':', ' '] ++ draft layout (depth + 1) d ++ entriesDraft layout depth es
end

/-- The JSON text of a datum. -/
def print (layout : Layout) (d : Datum) : Except WriteFault String := (draft layout 0 d).result

/-- The JSON text of a datum on one line, as far as it can be written. -/
def compact (d : Datum) : String := String.ofList (draft .oneLine 0 d).written

/-- What stands before an item is written, unless nothing is written for the item either. -/
theorem leadDraft_cases (before : List Char) (d : Datum) :
    leadDraft before d = .ofChars before ∨
      leadDraft before d = .stop .longNumeral ∧
        ∀ layout depth, draft layout depth d = .stop .longNumeral := by
  unfold leadDraft
  split
  · next s =>
    by_cases h : isLong s = true
    · exact .inr ⟨if_pos h, fun _ _ => by simp [draft, scalarDraft, h]⟩
    · exact .inl (if_neg h)
  · exact .inl rfl

/-- Where what stands before an item is complete, it is just that. -/
theorem eq_of_leadDraft {before cs : List Char} {d : Datum}
    (h : leadDraft before d = .ofChars cs) : cs = before := by
  rcases leadDraft_cases before d with hlead | ⟨hlead, -⟩
  · exact congrArg Draft.written (h.symm.trans hlead)
  · cases h.symm.trans hlead

end Json

end Groundplan
