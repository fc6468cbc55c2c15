import Groundplan.Datum.Display

/-!
# The heap of containers

Lists, tuples, mappings and read-only views live in cells, so that several holders of a container
see the same changes and a container can come to stand inside itself. A value is an atom or a cell.
`datum` reads a value through all its containers and puts a `loop` where one would be entered again
inside itself; every check and every rendering of values is a function of that datum.
-/

namespace Groundplan

/-- The place of a container on the heap. -/
abbrev CellId := Nat

/-- What a caller holds: an atom, or a container by its place. -/
inductive Value where
  | atom (a : Atom)
  | cell (id : CellId)

namespace Value

/-- The value that is a scalar. -/
abbrev scalar (s : Scalar) : Value := .atom (.scalar s)

/-- The value that is a text. -/
abbrev text (s : String) : Value := .scalar (.text s)

/-- The value that is nothing. -/
abbrev null : Value := .scalar .null

instance : Inhabited Value := ⟨.null⟩

/-- The text that a value is. -/
def text? : Value → Option String
  | .atom (.scalar (.text s)) => some s
  | _ => none

/-- Whether a value is nothing. -/
def isNull : Value → Bool
  | .atom (.scalar .null) => true
  | _ => false

end Value

/-- A container. A view shows the entries of a container that is older than itself. -/
inductive Cell where
  | list (items : List Value)
  | tuple (items : List Value)
  | mapping (entries : Entries Value)
  | view (base : CellId)

/-- The containers, and a counter for what is told apart by number alone. -/
structure Heap where
  cells : Array Cell := #[]
  serial : Nat := 1

namespace Heap

/-- The heap with a new container, and its place. -/
def alloc (h : Heap) (c : Cell) : Heap × CellId :=
  ({ h with cells := h.cells.push c }, h.cells.size)

/-- The heap with a container in a place that is in use. -/
def write (h : Heap) (id : CellId) (c : Cell) : Heap :=
  { h with cells := h.cells.setIfInBounds id c }

/-- The heap with its counter moved on, and the number it showed. -/
def fresh (h : Heap) : Heap × Nat := ({ h with serial := h.serial + 1 }, h.serial)

/-- The entries of a mapping, or of the mapping that a view shows. -/
def entries? (h : Heap) (id : CellId) : Option (Entries Value) :=
  match h.cells[id]? with
  | some (.mapping es) => some es
  | some (.view base) => if base < id then h.entries? base else none
  | _ => none
termination_by id

/-- The kind of a container. -/
def container (h : Heap) (id : CellId) : Container :=
  match h.cells[id]? with
  | some (.tuple _) => .tuple
  | some (.mapping _) => .mapping
  | some (.view _) => .view
  | _ => .list

/-- Reads a value through its containers, below those in `inside`, at most `fuel` deep. -/
def read (h : Heap) : Nat → List CellId → Value → Datum
  | _, _, .atom a => .atom a
  | 0, _, .cell id => .loop (h.container id)
  | fuel + 1, inside, .cell id =>
      if inside.contains id then .loop (h.container id)
      else
        match h.cells[id]? with
        | some (.list items) => .sequence false (items.map (h.read fuel (id :: inside)))
        | some (.tuple items) => .sequence true (items.map (h.read fuel (id :: inside)))
        | some (.mapping es) =>
            .mapping false (es.map fun (k, v) => (k, h.read fuel (id :: inside) v))
        | some (.view _) =>
            .mapping true
              (((h.entries? id).getD []).map fun (k, v) => (k, h.read fuel (id :: inside) v))
        | none => .null

/-- A value read through all its containers. No path of containers is longer than the heap unless one
of them comes again. -/
def datum (h : Heap) (v : Value) : Datum := h.read (h.cells.size + 1) [] v

/-- A value read so many containers deep, with those that stand inside themselves read again each time
they are met; what is deeper is a loop. -/
def unrolled (h : Heap) : Nat → Value → Datum
  | _, .atom a => .atom a
  | 0, .cell id => .loop (h.container id)
  | depth + 1, .cell id =>
      match h.cells[id]? with
      | some (.list items) => .sequence false (items.map (h.unrolled depth))
      | some (.tuple items) => .sequence true (items.map (h.unrolled depth))
      | some (.mapping es) => .mapping false (es.map fun (k, v) => (k, h.unrolled depth v))
      | some (.view _) =>
          .mapping true (((h.entries? id).getD []).map fun (k, v) => (k, h.unrolled depth v))
      | none => .null

/-- The name of a value's type. -/
def typeName (h : Heap) : Value → String
  | .atom a => a.typeName
  | .cell id => (h.container id).typeName

/-- The entries of a value that is a mapping or a view of one. -/
def entriesOf? (h : Heap) : Value → Option (Entries Value)
  | .atom _ => none
  | .cell id => h.entries? id

/-- Takes a datum's containers into the heap, the inner ones first; a loop becomes nothing. -/
def intern (h : Heap) : Datum → Heap × Value
  | .atom a => (h, .atom a)
  | .loop _ => (h, .null)
  | .sequence fixed items =>
      let (h, vs) := internItems h items
      let (h, id) := h.alloc (if fixed then .tuple vs else .list vs)
      (h, .cell id)
  | .mapping _ es =>
      let (h, vs) := internEntries h es
      let (h, id) := h.alloc (.mapping vs)
      (h, .cell id)
where
  /-- Takes in the items of a sequence. -/
  internItems (h : Heap) : List Datum → Heap × List Value
    | [] => (h, [])
    | d :: ds =>
        let (h, v) := intern h d
        let (h, vs) := internItems h ds
        (h, v :: vs)
  /-- Takes in what the keys of a mapping lead to. -/
  internEntries (h : Heap) : List (Key × Datum) → Heap × Entries Value
    | [] => (h, [])
    | (k, d) :: es =>
        let (h, v) := intern h d
        let (h, vs) := internEntries h es
        (h, (k, v) :: vs)

/-- A new container leaves the others as they were. -/
theorem getElem?_alloc_of_lt (h : Heap) (c : Cell) {id : CellId} (hid : id < h.cells.size) :
    (h.alloc c).1.cells[id]? = h.cells[id]? := by
  simp [alloc, Array.getElem?_push, Nat.ne_of_lt hid]

/-- Writing one container leaves the others as they were. -/
theorem getElem?_write_of_ne (h : Heap) (c : Cell) {id other : CellId} (hne : other ≠ id) :
    (h.write id c).cells[other]? = h.cells[other]? := by
  simp [write, Ne.symm hne]

end Heap

/-- The key that a datum is, or the name of the type that cannot be one. -/
def Datum.key? : Datum → Except String Key
  | .atom (.scalar s) => .ok (.scalar s)
  | .atom (.bytes b) => .ok (.bytes b)
  | .atom (.reference r) => .ok (.reference r)
  | .atom (.entity e) => .ok (.entity e)
  | .sequence true items => (keys? items).map .tuple
  | d => .error d.typeName
where
  /-- The keys that the items of a tuple are. -/
  keys? : List Datum → Except String (List Key)
    | [] => .ok []
    | d :: ds =>
        match d.key?, keys? ds with
        | .ok k, .ok ks => .ok (k :: ks)
        | .error e, _ => .error e
        | _, .error e => .error e

end Groundplan
