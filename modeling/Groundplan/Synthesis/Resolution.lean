import Groundplan.Workspace.Validation

/-!
# Resolving properties

The body of a block: its properties with every reference replaced by a text. What a document cannot
hold is refused with the path it stands at, depth first and in order. No path is made of a key whose
text cannot be made, and containers are gone into as deep as there is room to.
-/

namespace Groundplan

/-- What a reference becomes at a path. -/
abbrev Rendering := String → Reference → Except SynthesisFault String

/-- An atom of a body. -/
def resolveAtom (render : Rendering) (path : String) : Atom → Except SynthesisFault Datum
  | .reference r => (render path r).map .text
  | .scalar (.float x) => if x.isFinite then .ok (.scalar (.float x)) else .error (.notFinite path)
  | .scalar s => .ok (.scalar s)
  | a => .error (.unsupported path a.typeName)

mutual
/-- A datum as a body holds it. Embeds `_resolve`. -/
def resolve (naming : Naming) (room : Room) (render : Rendering) (path : String) :
    Datum → Except SynthesisFault Datum
  | .atom a => resolveAtom render path a
  | .loop _ =>
      match room.enter .values with
      | .ok _ => .error (.selfContaining path)
      | .error cause => .error (.breakdown cause)
  | .sequence _ items =>
      match room.enter .values with
      | .ok room => (resolveItems naming room render path 0 items).map .list
      | .error cause => .error (.breakdown cause)
  | .mapping _ es =>
      match room.enter .values with
      | .ok room => (resolveEntries naming room render path es).map (.mapping false)
      | .error cause => .error (.breakdown cause)

/-- Items as a body holds them, from an index on. -/
def resolveItems (naming : Naming) (room : Room) (render : Rendering) (path : String) (index : Nat) :
    List Datum → Except SynthesisFault (List Datum)
  | [] => .ok []
  | d :: ds =>
      match resolve naming room render (itemPath path index) d with
      | .error e => .error e
      | .ok r =>
          match resolveItems naming room render path (index + 1) ds with
          | .error e => .error e
          | .ok rs => .ok (r :: rs)

/-- Entries as a body holds them. -/
def resolveEntries (naming : Naming) (room : Room) (render : Rendering) (path : String) :
    List (Key × Datum) → Except SynthesisFault (List (Key × Datum))
  | [] => .ok []
  | (k, d) :: es =>
      match k.shownPlain naming with
      | .error cause => .error (.breakdown cause)
      | .ok key =>
          match resolve naming room render (keyPath path key) d with
          | .error e => .error e
          | .ok r =>
              match resolveEntries naming room render path es with
              | .error e => .error e
              | .ok rs => .ok ((k, r) :: rs)
end

namespace Datum

mutual
/-- The nodes that a datum's references point at, in order. -/
def referenced : Datum → List NodeId
  | .atom (.reference r) => [r.target]
  | .atom _ => []
  | .loop _ => []
  | .sequence _ items => referencedItems items
  | .mapping _ es => referencedEntries es

/-- The nodes that items point at. -/
def referencedItems : List Datum → List NodeId
  | [] => []
  | d :: ds => referenced d ++ referencedItems ds

/-- The nodes that entries point at. -/
def referencedEntries : List (Key × Datum) → List NodeId
  | [] => []
  | (_, d) :: es => referenced d ++ referencedEntries es
end

end Datum

end Groundplan
