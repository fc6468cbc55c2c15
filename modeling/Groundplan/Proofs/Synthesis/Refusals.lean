import Groundplan.Proofs.Synthesis.Defects
import Groundplan.Proofs.Workspace.Widening
import Groundplan.Proofs.Workspace.Validated

/-!
# What synthesis still has to refuse

Declarations are checked when they are made, and synthesis checks again. While the caller leaves
alone the containers that nodes hold, the first check is enough: all that nodes show is supported,
and what synthesis refuses is a container in itself, a reference that leaves the stack, a cycle, or
a slot or an alias that is taken.
-/

namespace Groundplan

/-- What properties may show: a supported leaf, a sequence, or a mapping with names for keys. -/
def Heap.Proper (h : Heap) : Value → Prop
  | .atom a => a.Supported
  | .cell c => (∃ items, h.cells[c]? = some (.list items)) ∨
      (∃ items, h.cells[c]? = some (.tuple items)) ∨ ∃ es, h.entries? c = some es ∧ es.Named

/-- What is found wrong only once a stack is looked at as a whole. -/
def Defect.whole : List Defect := [.selfContaining, .foreign, .cycle, .sharedSlot, .sharedAlias]

theorem Defect.mem_whole_iff {d : Defect} : d ∈ whole ↔ d ≠ .unsupported := by
  cases d <;> decide

namespace Workspace

variable {w : Workspace}

/-- A container with supported contents is a sequence or a mapping, for a view shows a mapping. -/
private theorem proper_cell (hk : w.Known) (hw : w.Validated) {c : CellId} (hc : w.Shown c) :
    w.heap.Proper (.cell c) := by
  have hnamed {es : Entries Value} (hes : w.heap.entries? c = some es) : w.heap.Proper (.cell c) :=
    .inr (.inr ⟨es, hes, hw.named hc hes⟩)
  have hlt : c < w.heap.cells.size := hw.lt_size hc
  cases hcell : w.heap.cells[c]? with
  | none =>
    rw [Array.getElem?_eq_none_iff] at hcell
    exact absurd hlt (Nat.not_lt_of_le hcell)
  | some cell =>
    cases cell with
    | list items => exact .inl ⟨items, hcell⟩
    | tuple items => exact .inr (.inl ⟨items, hcell⟩)
    | mapping es => exact hnamed (Heap.entries?_of_mapping hcell)
    | view base =>
      obtain ⟨es, hes⟩ := Option.isSome_iff_exists.mp (hk.views.isSome_entries? hcell)
      exact hnamed hes

/-- What nodes show is proper. -/
theorem Built.proper_of_reaches (hw : Built w) {n : NodeId} (hn : n < w.nodes.size) {v : Value}
    (hr : w.heap.Reaches (w.node n).properties v) : w.heap.Proper v := by
  have hvalidated := hw.validated
  cases v with
  | cell c => exact proper_cell hw.reached.known hvalidated ⟨n, hn, hr⟩
  | atom a =>
    have hshown : w.Shown (w.propertyCell n) :=
      ⟨n, hn, hw.reached.stored.properties_eq hn ▸ .refl _⟩
    rw [hw.reached.stored.properties_eq hn] at hr
    exact Heap.Sound.of_reaches hvalidated (v := .cell _) hshown hr

/-- No block has a leaf that a document cannot hold. -/
theorem Built.not_has_unsupported (hw : Built w) (stack : NodeId) :
    ¬ w.Has stack .unsupported := by
  rintro ⟨n, hn, a, hr, hs⟩
  exact hs (hw.proper_of_reaches (lt_size_of_mem_blockNodes hn) hr)

/-- Requests that declare two resources which point at each other. -/
def mutualCalls : List Call :=
  [.createApp "", .createStack 0 (.text "stack"),
    .addBlock 0 .resource (.text "vpc") (.text "a") .null,
    .keep (.mapping [(.text "peer", .atom (.reference ⟨1, "id"⟩))]),
    .addBlock 0 .resource (.text "vpc") (.text "b") (.cell 2),
    .setProperty 1 (.text "peer") (.atom (.reference ⟨2, "id"⟩))]

end Workspace

end Groundplan
