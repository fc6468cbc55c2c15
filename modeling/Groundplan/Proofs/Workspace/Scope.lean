import Groundplan.Call
import Groundplan.Proofs.Datum.Entries
import Groundplan.Proofs.Heap.Containment

/-!
# What a caller can name

A caller holds the apps and nodes that it was given, the containers that it made, and the mappings
that nodes keep their properties in, which it may hand on like any other value. A request is in
scope if all it names is there; a container that the caller writes itself is none of those mappings.
A value draws on a container if it shows it, directly, at some depth or through a view. A container
is held by a node if the node's properties draw on it; a request spares the nodes if it writes no
container that they hold.
-/

namespace Groundplan

/-- One container shows its entries through another, or is the other. -/
inductive Heap.Backs (h : Heap) (c : CellId) : CellId → Prop
  | refl : Backs h c c
  | view {base id : CellId} (hid : h.cells[id]? = some (.view base)) (hlt : base < id)
      (hb : Backs h c base) : Backs h c id

/-- The value shows the container, directly, at some depth or through a view. -/
def Heap.DrawsOn (h : Heap) (v : Value) (c : CellId) : Prop :=
  ∃ id, h.Reaches v (.cell id) ∧ h.Backs c id

namespace Workspace

/-- The container is the mapping that a node keeps its properties in. -/
def Owns (w : Workspace) (id : CellId) : Prop :=
  ∃ n < w.nodes.size, (w.node n).properties = .cell id

private def ownsCell (w : Workspace) (id : CellId) (n : NodeId) : Bool :=
  match (w.node n).properties with
  | .cell c => c == id
  | .atom _ => false

private theorem ownsCell_iff (w : Workspace) (id : CellId) (n : NodeId) :
    w.ownsCell id n = true ↔ (w.node n).properties = .cell id := by
  unfold ownsCell
  split
  · next h => simp [h]
  · next h => simp [h]

instance (w : Workspace) (id : CellId) : Decidable (w.Owns id) :=
  decidable_of_iff (∃ n < w.nodes.size, w.ownsCell id n = true) (by simp only [ownsCell_iff, Owns])

/-- The container shows up in the properties of a node. -/
def Holds (w : Workspace) (c : CellId) : Prop :=
  ∃ n < w.nodes.size, w.heap.DrawsOn (w.node n).properties c

end Workspace

/-- The entity is there, and what it is said to be. -/
def Entity.InScope (w : Workspace) : Entity → Prop
  | .object _ => True
  | .app a => a < w.apps.size
  | .node n isStack => n < w.nodes.size ∧ (w.node n).isStack = isStack

instance Entity.decidableInScope (w : Workspace) : (e : Entity) → Decidable (e.InScope w)
  | .object _ => inferInstanceAs (Decidable True)
  | .app a => inferInstanceAs (Decidable (a < w.apps.size))
  | .node n isStack =>
      inferInstanceAs (Decidable (n < w.nodes.size ∧ (w.node n).isStack = isStack))

namespace Key

mutual
/-- All that a key names is there. -/
def InScope (w : Workspace) : Key → Prop
  | .scalar _ => True
  | .bytes _ => True
  | .tuple items => AllInScope w items
  | .reference r => r.target < w.nodes.size
  | .entity e => e.InScope w

/-- All that keys name is there. -/
def AllInScope (w : Workspace) : List Key → Prop
  | [] => True
  | k :: ks => InScope w k ∧ AllInScope w ks
end

mutual
instance decidableInScope (w : Workspace) : (k : Key) → Decidable (k.InScope w)
  | .scalar _ => .isTrue trivial
  | .bytes _ => .isTrue trivial
  | .tuple items => decidableAllInScope w items
  | .reference r => Nat.decLt r.target w.nodes.size
  | .entity e => e.decidableInScope w

instance decidableAllInScope (w : Workspace) : (ks : List Key) → Decidable (AllInScope w ks)
  | [] => .isTrue trivial
  | k :: ks => @instDecidableAnd _ _ (decidableInScope w k) (decidableAllInScope w ks)
end

end Key

/-- All that an atom names is there. -/
def Atom.InScope (w : Workspace) : Atom → Prop
  | .scalar _ => True
  | .reference r => r.target < w.nodes.size
  | .bytes _ => True
  | .set elements => ∀ k ∈ elements, k.InScope w
  | .entity e => e.InScope w

instance (w : Workspace) : (a : Atom) → Decidable (a.InScope w)
  | .scalar _ => inferInstanceAs (Decidable True)
  | .reference r => inferInstanceAs (Decidable (r.target < w.nodes.size))
  | .bytes _ => inferInstanceAs (Decidable True)
  | .set elements => inferInstanceAs (Decidable (∀ k ∈ elements, k.InScope w))
  | .entity e => inferInstanceAs (Decidable (e.InScope w))

/-- All that a value names is there. -/
def Value.InScope (w : Workspace) : Value → Prop
  | .atom a => a.InScope w
  | .cell id => id < w.heap.cells.size

instance (w : Workspace) : (v : Value) → Decidable (v.InScope w)
  | .atom a => inferInstanceAs (Decidable (a.InScope w))
  | .cell id => inferInstanceAs (Decidable (id < w.heap.cells.size))

/-- A container that a caller can make: of what is there, each key once, and a view of a mapping. -/
def Cell.InScope (w : Workspace) : Cell → Prop
  | .list items => ∀ v ∈ items, v.InScope w
  | .tuple items => ∀ v ∈ items, v.InScope w
  | .mapping es => es.Distinct ∧ ∀ e ∈ es, e.1.InScope w ∧ e.2.InScope w
  | .view base => (Value.cell base).InScope w ∧ (w.heap.entries? base).isSome

instance (w : Workspace) : (cell : Cell) → Decidable (cell.InScope w)
  | .list items => inferInstanceAs (Decidable (∀ v ∈ items, v.InScope w))
  | .tuple items => inferInstanceAs (Decidable (∀ v ∈ items, v.InScope w))
  | .mapping es =>
      inferInstanceAs (Decidable (es.Distinct ∧ ∀ e ∈ es, e.1.InScope w ∧ e.2.InScope w))
  | .view base =>
      inferInstanceAs (Decidable ((Value.cell base).InScope w ∧ (w.heap.entries? base).isSome))

namespace Call

/-- All that a request names is there. -/
def InScope (w : Workspace) : Call → Prop
  | .createApp _ => True
  | .createStack app name => app < w.apps.size ∧ name.InScope w
  | .addConstruct parent id => parent < w.nodes.size ∧ id.InScope w
  | .addBlock parent _ typeTag id properties =>
      parent < w.nodes.size ∧ typeTag.InScope w ∧ id.InScope w ∧ properties.InScope w
  | .addOutput parent id value description sensitive =>
      parent < w.nodes.size ∧ id.InScope w ∧ value.InScope w ∧ description.InScope w ∧
        sensitive.InScope w
  | .setProperty node key value => node < w.nodes.size ∧ key.InScope w ∧ value.InScope w
  | .addOverride node path value => node < w.nodes.size ∧ path.InScope w ∧ value.InScope w
  | .keep cell => cell.InScope w
  | .push list item => list < w.heap.cells.size ∧ ¬ w.Owns list ∧ item.InScope w
  | .put mapping key value =>
      mapping < w.heap.cells.size ∧ ¬ w.Owns mapping ∧ key.InScope w ∧ value.InScope w
  | .synthesize target _ => target.InScope w
  | .synthesizeApp app _ => app < w.apps.size

instance (w : Workspace) : (call : Call) → Decidable (call.InScope w)
  | .createApp _ => inferInstanceAs (Decidable True)
  | .createStack app name => inferInstanceAs (Decidable (app < w.apps.size ∧ name.InScope w))
  | .addConstruct parent id =>
      inferInstanceAs (Decidable (parent < w.nodes.size ∧ id.InScope w))
  | .addBlock parent _ typeTag id properties =>
      inferInstanceAs (Decidable (parent < w.nodes.size ∧ typeTag.InScope w ∧ id.InScope w ∧
        properties.InScope w))
  | .addOutput parent id value description sensitive =>
      inferInstanceAs (Decidable (parent < w.nodes.size ∧ id.InScope w ∧ value.InScope w ∧
        description.InScope w ∧ sensitive.InScope w))
  | .setProperty node key value =>
      inferInstanceAs (Decidable (node < w.nodes.size ∧ key.InScope w ∧ value.InScope w))
  | .addOverride node path value =>
      inferInstanceAs (Decidable (node < w.nodes.size ∧ path.InScope w ∧ value.InScope w))
  | .keep cell => inferInstanceAs (Decidable (cell.InScope w))
  | .push list item =>
      inferInstanceAs (Decidable (list < w.heap.cells.size ∧ ¬ w.Owns list ∧ item.InScope w))
  | .put mapping key value =>
      inferInstanceAs (Decidable (mapping < w.heap.cells.size ∧ ¬ w.Owns mapping ∧
        key.InScope w ∧ value.InScope w))
  | .synthesize target _ => inferInstanceAs (Decidable (target.InScope w))
  | .synthesizeApp app _ => inferInstanceAs (Decidable (app < w.apps.size))

/-- Each request of a list names only what is there when its turn comes. -/
def AllInScope (w : Workspace) : List Call → Prop
  | [] => True
  | call :: calls => call.InScope w ∧ AllInScope (w.perform call).workspace calls

instance decidableAllInScope (w : Workspace) : (calls : List Call) → Decidable (AllInScope w calls)
  | [] => inferInstanceAs (Decidable True)
  | call :: calls =>
      have := decidableAllInScope (w.perform call).workspace calls
      inferInstanceAs (Decidable (call.InScope w ∧ AllInScope (w.perform call).workspace calls))

/-- The container of a caller that a request writes. -/
def written? : Call → Option CellId
  | .push list _ => some list
  | .put mapping _ _ => some mapping
  | _ => none

/-- The request writes no container that a node holds. -/
def Sparing (w : Workspace) (call : Call) : Prop := ∀ c ∈ call.written?, ¬ w.Holds c

end Call

end Groundplan
