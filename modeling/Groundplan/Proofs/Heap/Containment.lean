import Groundplan.Heap
import Groundplan.Proofs.Datum.Parts

/-!
# Containment on the heap

`parts` lists what a container holds directly. `Reaches` is the relation of a value to everything in
it at any depth; a container that is reached from one of its own parts contains itself. Containers
may be shared, so nothing here says that a value is reached along one way only.
-/

namespace Groundplan.Heap

/-- What a container holds directly. -/
def parts (h : Heap) (id : CellId) : List Value :=
  match h.cells[id]? with
  | some (.list items) | some (.tuple items) => items
  | some (.mapping es) => es.values
  | some (.view _) => ((h.entries? id).getD []).values
  | none => []

/-- The second value is the first or stands in it at some depth. -/
inductive Reaches (h : Heap) : Value → Value → Prop
  | refl (v : Value) : Reaches h v v
  | step {id : CellId} {v u : Value} (hv : v ∈ h.parts id) (hu : Reaches h v u) :
      Reaches h (.cell id) u

/-- A container stands in one of its own parts. -/
def SelfContaining (h : Heap) (id : CellId) : Prop := ∃ v ∈ h.parts id, h.Reaches v (.cell id)

variable {h : Heap}

/-- What stands in a part stands in the whole. -/
theorem Reaches.trans {a b c : Value} (hab : h.Reaches a b) (hbc : h.Reaches b c) :
    h.Reaches a c := by
  induction hab with
  | refl => exact hbc
  | step hv _ ih => exact .step hv (ih hbc)

/-- A part of a container is reached from it. -/
theorem Reaches.part {id : CellId} {v : Value} (hv : v ∈ h.parts id) :
    h.Reaches (.cell id) v := .step hv (.refl v)

/-- A value reaches itself, and what the parts of a container reach. -/
theorem reaches_cell_iff {id : CellId} {u : Value} :
    h.Reaches (.cell id) u ↔ u = .cell id ∨ ∃ v ∈ h.parts id, h.Reaches v u := by
  constructor
  · intro hu
    cases hu with
    | refl => exact .inl rfl
    | step hv hu => exact .inr ⟨_, hv, hu⟩
  · rintro (rfl | ⟨v, hv, hu⟩)
    · exact .refl _
    · exact .step hv hu

/-- Only a container that is there has parts. -/
theorem lt_size_of_mem_parts {id : CellId} {v : Value} (hv : v ∈ h.parts id) :
    id < h.cells.size := by
  rcases Nat.lt_or_ge id h.cells.size with hid | hid
  · exact hid
  · simp [parts, Array.getElem?_eq_none hid] at hv

/-- What a container becomes if each of its parts becomes a datum. -/
def layer (h : Heap) (id : CellId) (f : Value → Datum) : Datum :=
  match h.cells[id]? with
  | some (.list items) => .sequence false (items.map f)
  | some (.tuple items) => .sequence true (items.map f)
  | some (.mapping es) => .mapping false (es.mapValues f)
  | some (.view _) => .mapping true (((h.entries? id).getD []).mapValues f)
  | none => .null

/-- Reading an atom gives the atom. -/
@[simp] theorem read_atom (fuel : Nat) (inside : List CellId) (a : Atom) :
    h.read fuel inside (.atom a) = .atom a := by
  cases fuel <;> rfl

/-- Reading a container reads its parts below it, unless it is met inside itself. -/
theorem read_cell_succ (fuel : Nat) (inside : List CellId) (id : CellId) :
    h.read (fuel + 1) inside (.cell id) =
      if id ∈ inside then .loop (h.container id)
      else h.layer id (h.read fuel (id :: inside)) := by
  simp only [read, layer, List.contains_eq_mem, decide_eq_true_eq]
  split
  · rfl
  · split <;> simp [Entries.mapValues, *]

/-- What stands in a layer is the layer or stands in what a part became. -/
theorem within_layer {id : CellId} {f : Value → Datum} {x : Datum} :
    Datum.Within x (h.layer id f) ↔
      x = h.layer id f ∨ ∃ v ∈ h.parts id, Datum.Within x (f v) := by
  unfold layer parts
  split
  · simp only [*, Datum.within_sequence, List.mem_map]
    grind
  · simp only [*, Datum.within_sequence, List.mem_map]
    grind
  · simp only [*, Datum.within_mapping, Entries.mapValues, Entries.values, List.mem_map]
    grind
  · simp only [*, Datum.within_mapping, Entries.mapValues, Entries.values, List.mem_map]
    grind
  · simp [*]

/-- A layer is no loop. -/
theorem layer_ne_loop {id : CellId} {f : Value → Datum} {c : Container} :
    h.layer id f ≠ .loop c := by
  unfold layer
  split <;> simp

/-- A layer is free of loops if what each part became is. -/
theorem loopFree_layer {id : CellId} {f : Value → Datum} :
    (h.layer id f).LoopFree ↔ ∀ v ∈ h.parts id, (f v).LoopFree := by
  constructor
  · intro hl v hv c hc
    exact hl c (within_layer.2 (.inr ⟨v, hv, hc⟩))
  · intro hf c hc
    rcases within_layer.1 hc with he | ⟨v, hv, hc⟩
    · exact layer_ne_loop he.symm
    · exact hf v hv c hc

end Groundplan.Heap
