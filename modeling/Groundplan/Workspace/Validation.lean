import Groundplan.Fault
import Groundplan.Text.Blank
import Groundplan.Text.Split
import Groundplan.Workspace.Display

/-!
# Validation

What a declaration may hold. Identifiers are texts that are not blank and have no slash. A property
is a scalar, a reference, a sequence or a mapping with texts other than the empty one for keys, of
such; a number must be finite. Containers are read in order and depth first, as deep as there is room
to, and the first fault counts. A container inside itself is passed over here: synthesis refuses it.
-/

namespace Groundplan

/-- Why a datum is no identifier. -/
def blankIdentifier (naming : Naming) (label : String) (d : Datum) : Fault :=
  match d.shown naming with
  | .ok shown => .blankIdentifier label shown
  | .error cause => .breakdown cause

/-- The text that an identifier is, if it may be one. Embeds `_check_identifier`. -/
def checkIdentifier (naming : Naming) (label : String) (d : Datum) : Except Fault String :=
  match d.text? with
  | some s =>
      if Text.isBlankText s then .error (blankIdentifier naming label d)
      else if s.toList.contains '/' then .error (.separatorInIdentifier label s)
      else .ok s
  | none => .error (blankIdentifier naming label d)

/-- Why something with this text is no key of properties. -/
def badKey (path : String) : Except Breakdown String → PropertyFault
  | .ok shown => .badKey shown path
  | .error cause => .breakdown cause

/-- The text that a key of properties is, if it may be one. Embeds `validate_key`. -/
def checkKey (naming : Naming) (path : String) : Key → Except PropertyFault String
  | .scalar (.text s) =>
      if s.isEmpty then .error (badKey path ((Key.text s).shown naming)) else .ok s
  | k => .error (badKey path (k.shown naming))

/-- The text that a datum in the place of a key is, if it may be one. -/
def checkKeyDatum (naming : Naming) (path : String) (d : Datum) : Except PropertyFault String :=
  match d.text? with
  | some s => checkKey naming path (.text s)
  | none => .error (badKey path (d.shown naming))

/-- An atom that a property may be. -/
def checkAtom (path : String) : Atom → Except PropertyFault Unit
  | .scalar (.float x) => if x.isFinite then .ok () else .error (.notFinite path x.text)
  | .scalar _ => .ok ()
  | .reference _ => .ok ()
  | a => .error (.unsupported path a.typeName)

/-- The path of an item of a sequence. -/
def itemPath (path : String) (index : Nat) : String := s!"{path}[{index}]"

/-- The path of what a key leads to. -/
def keyPath (path key : String) : String := path ++ "." ++ key

mutual
/-- A datum that a property may be. Embeds `_check`. -/
def checkValue (naming : Naming) (room : Room) (path : String) : Datum → Except PropertyFault Unit
  | .atom a => checkAtom path a
  | .loop _ =>
      match room.enter .values with
      | .ok _ => .ok ()
      | .error cause => .error (.breakdown cause)
  | .sequence _ items =>
      match room.enter .values with
      | .ok room => checkItems naming room path 0 items
      | .error cause => .error (.breakdown cause)
  | .mapping _ es =>
      match room.enter .values with
      | .ok room => checkEntries naming room path es
      | .error cause => .error (.breakdown cause)

/-- Items that a property may hold, from an index on. -/
def checkItems (naming : Naming) (room : Room) (path : String) (index : Nat) :
    List Datum → Except PropertyFault Unit
  | [] => .ok ()
  | d :: ds =>
      match checkValue naming room (itemPath path index) d with
      | .ok () => checkItems naming room path (index + 1) ds
      | .error e => .error e

/-- Entries that a property may hold. -/
def checkEntries (naming : Naming) (room : Room) (path : String) :
    List (Key × Datum) → Except PropertyFault Unit
  | [] => .ok ()
  | (k, d) :: es =>
      match checkKey naming path k with
      | .error e => .error e
      | .ok key =>
          match checkValue naming room (keyPath path key) d with
          | .ok () => checkEntries naming room path es
          | .error e => .error e
end

/-- The segments of an override's path, set apart by dots and none of them empty. Embeds
`split_override_path`. -/
def splitOverridePath (d : Datum) : Except PropertyFault (List String) :=
  match d.text? with
  | none => .error (.overrideNotText d.typeName)
  | some s =>
      let segments := Text.split '.' s
      if segments.any String.isEmpty then .error (.badOverride s) else .ok segments

namespace Workspace

/-- A value that a property may be. Embeds `validate_value`. -/
def checkValue (w : Workspace) (path : String) (v : Value) : Except PropertyFault Unit :=
  Groundplan.checkValue w.naming w.limits.checking path (w.heap.datum v)

/-- Entries that properties may hold, each value read afresh. Embeds the loop of
`validate_properties`. -/
def checkProperties (w : Workspace) (path : String) : Entries Value → Except PropertyFault Unit
  | [] => .ok ()
  | (k, v) :: es =>
      match checkKey w.naming path k with
      | .error e => .error e
      | .ok key =>
          match w.checkValue (keyPath path key) v with
          | .ok () => w.checkProperties path es
          | .error e => .error e

/-- The entries of properties that a caller hands over, if they are fit to be kept: nothing at all
means none. Containers inside them stay shared with the caller. Embeds `validate_properties`. -/
def validProperties (w : Workspace) (path : String) (v : Value) :
    Except PropertyFault (Entries Value) :=
  if v.isNull then .ok []
  else
    match w.heap.entriesOf? v with
    | none => .error (.notMapping path (w.heap.typeName v))
    | some es =>
        match w.checkProperties path es with
        | .ok () => .ok es
        | .error e => .error e

end Workspace

/-- An identifier that is accepted is a text that is not blank and has no slash. -/
theorem checkIdentifier_eq_ok {naming : Naming} {label s : String} {d : Datum}
    (h : checkIdentifier naming label d = .ok s) :
    d.text? = some s ∧ Text.isBlankText s = false ∧ s.toList.contains '/' = false := by
  unfold checkIdentifier at h
  split at h
  · next t ht =>
    split at h
    · simp at h
    · next hb =>
      split at h
      · simp at h
      · next hs =>
        simp only [Except.ok.injEq] at h
        subst h
        exact ⟨ht, Bool.eq_false_iff.2 hb, Bool.eq_false_iff.2 hs⟩
  · simp at h

end Groundplan
