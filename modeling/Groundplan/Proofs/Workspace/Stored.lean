import Groundplan.Proofs.Heap.Tidy
import Groundplan.Proofs.Workspace.Growth

/-!
# What nodes keep

In every workspace that is reached a node is a group or a block of one of the kinds that documents
hold, its properties are an open mapping on a tidy heap that is no other node's, and an output has a
value among them.
-/

namespace Groundplan.Workspace

variable {w w' : Workspace}

/-- The kind is one that nodes are declared with. -/
def KnownKind (kind : NodeKind) : Prop := kind = .group ∨ ∃ k, kind = .block k

private theorem Declared.knownKind {n : Node} {es : Entries Value} (h : w.Declared n es) :
    KnownKind n.kind := by
  cases h with
  | group => exact .inl rfl
  | typed => exact .inr ⟨_, rfl⟩
  | typedWith => exact .inr ⟨_, rfl⟩
  | output => exact .inr ⟨_, rfl⟩

private theorem knownKind_step {allowed : CellId → Prop} (hw : ∀ n, KnownKind (w.node n).kind)
    (h : w.Step allowed w') (n : NodeId) : KnownKind (w'.node n).kind := by
  cases h with
  | same => exact hw n
  | app a _ =>
    rw [(sameTrees_pushApp w a).kind_eq]
    exact hw n
  | stack a name =>
    rw [node_withStack]
    split
    · exact .inl rfl
    · exact hw n
  | child parent hp _ _ _ hn =>
    rw [kind_withChild hp]
    split
    · exact hn.knownKind
    · exact hw n
  | property m =>
    rw [(sameTrees_markBuilding _ m).kind_eq, node_withHeap]
    exact hw n
  | override m =>
    rw [(sameTrees_markBuilding _ m).kind_eq, node_withHeap]
    exact hw n
  | keep => exact hw n
  | push => exact hw n
  | put => exact hw n
  | closed locked =>
    rw [(sameTrees_foldl_close locked w).kind_eq]
    exact hw n

/-- Nodes are groups or blocks of the kinds that documents hold. -/
theorem Reached.knownKind (hw : Reached w) (n : NodeId) : KnownKind (w.node n).kind := by
  refine hw.invariant (P := fun w => ∀ n, KnownKind (w.node n).kind) ?_ ?_ n
  · intro n
    rw [node_start]
    exact .inl rfl
  · exact fun _ _ hw h => knownKind_step hw h

/-- The heap is tidy, and each node has a mapping of its own, with a value in that of an output. -/
structure Stored (w : Workspace) : Prop where
  tidy : w.heap.Tidy
  own : ∀ n < w.nodes.size, ∃ c es, (w.node n).properties = .cell c ∧
    w.heap.cells[c]? = some (.mapping es) ∧
      ((w.node n).kind = .block .output → es.has (.text "value") = true)

/-- What a caller can name is on the heap. -/
theorem below_of_inScope {v : Value} (hv : v.InScope w) : v.Below w.heap.cells.size := by
  cases v with
  | atom a => trivial
  | cell id => exact hv

private theorem Stored.of_extends (hw : w.Stored) (hsize : w'.nodes.size = w.nodes.size)
    (hprops : ∀ n, (w'.node n).properties = (w.node n).properties)
    (hkind : ∀ n, (w'.node n).kind = (w.node n).kind) (htidy : w'.heap.Tidy)
    (hext : w.heap.Extends w'.heap) : w'.Stored where
  tidy := htidy
  own n hn := by
    rw [hsize] at hn
    obtain ⟨c, es, hc, hes, hvalue⟩ := hw.own n hn
    obtain ⟨es', hes', hkeys⟩ := hext.mapping hes
    refine ⟨c, es', by rw [hprops, hc], hes', fun hk => hkeys _ (hvalue ?_)⟩
    rw [← hkind, hk]

private theorem Stored.of_sameTrees (hw : w.Stored) (h : SameTrees w w') : w'.Stored :=
  hw.of_extends h.size_eq h.properties_eq h.kind_eq (h.heap_eq ▸ hw.tidy)
    (h.heap_eq ▸ Heap.Extends.refl _)

private theorem Stored.withHeap (hw : w.Stored) {h : Heap} (htidy : h.Tidy)
    (hext : w.heap.Extends h) : (w.withHeap h).Stored :=
  hw.of_extends rfl (fun _ => rfl) (fun _ => rfl) htidy hext

private theorem Stored.withStack (hw : w.Stored) (a : AppId) (name : String) :
    (w.withStack a name).Stored where
  tidy := by
    rw [heap_withStack]
    exact hw.tidy.alloc (by simp [Heap.contents, Entries.values])
      fun es he => by cases he; exact .nil
  own n hn := by
    rw [size_withStack] at hn
    rw [node_withStack, heap_withStack]
    split
    · exact ⟨_, _, rfl, Heap.getElem?_alloc_size .., by simp⟩
    · next hne =>
      obtain ⟨c, es, hc, hes, hvalue⟩ :=
        hw.own n (Nat.lt_of_le_of_ne (Nat.le_of_lt_succ hn) hne)
      refine ⟨c, es, hc, ?_, hvalue⟩
      rw [Heap.getElem?_alloc_of_lt _ _ (Heap.lt_size_of_getElem? hes)]
      exact hes

/-- No two keys of an output's properties are the same, and a value is always among them. -/
private theorem outputEntries_facts (value description sensitive : Value) :
    (outputEntries value description sensitive).Distinct ∧
      (outputEntries value description sensitive).has (.text "value") = true := by
  unfold outputEntries Entries.Distinct Entries.has
  constructor
  · cases description.isNull <;> cases sensitive.isNull <;> simp
  · simp

/-- An output has what it is told for properties. -/
theorem mem_values_outputEntries {value description sensitive v : Value}
    (hv : v ∈ (outputEntries value description sensitive).values) :
    v = value ∨ v = description ∨ v = sensitive := by
  simp only [outputEntries, Entries.values] at hv
  cases description.isNull <;> cases sensitive.isNull <;> simp at hv <;> grind

/-- The properties that a node is declared with can be stored. -/
theorem Declared.entries (hw : w.Stored) {n : Node} {es : Entries Value}
    (h : w.Declared n es) : (∀ v ∈ es.values, v.Below w.heap.cells.size) ∧ es.Distinct ∧
      (n.kind = .block .output → es.has (.text "value") = true) := by
  cases h with
  | group => exact ⟨by simp [Entries.values], .nil, by simp⟩
  | typed id kind =>
    exact ⟨by simp [Entries.values], .nil, by cases kind <;> simp [TypedKind.kind]⟩
  | typedWith id kind typeTag htag hc hes =>
    exact ⟨hw.tidy.closed.entries hes, hw.tidy.entries hes, by cases kind <;> simp [TypedKind.kind]⟩
  | @output id value description sensitive hv hd hs =>
    obtain ⟨hdistinct, hvalue⟩ := outputEntries_facts value description sensitive
    refine ⟨fun v hmem => ?_, hdistinct, fun _ => hvalue⟩
    rcases mem_values_outputEntries hmem with rfl | rfl | rfl
    · exact below_of_inScope hv
    · exact below_of_inScope hd
    · exact below_of_inScope hs

private theorem Stored.withChild (hw : w.Stored) {parent : NodeId} (hp : parent < w.nodes.size)
    {n : Node} {es : Entries Value} (hn : w.Declared n es) : (w.withChild parent n es).Stored := by
  obtain ⟨hbelow, hdistinct, hvalue⟩ := hn.entries hw
  refine ⟨?_, fun m hm => ?_⟩
  · rw [heap_withChild]
    exact hw.tidy.alloc hbelow fun es' he => by cases he; exact hdistinct
  · rw [size_withChild] at hm
    rw [properties_withChild hp, kind_withChild hp, heap_withChild]
    split
    · exact ⟨_, _, rfl, Heap.getElem?_alloc_size .., hvalue⟩
    · next hne =>
      obtain ⟨c, es', hc, hes, hv⟩ := hw.own m (Nat.lt_of_le_of_ne (Nat.le_of_lt_succ hm) hne)
      refine ⟨c, es', hc, ?_, hv⟩
      rw [Heap.getElem?_alloc_of_lt _ _ (Heap.lt_size_of_getElem? hes)]
      exact hes

private theorem contents_below (hw : w.Stored) {cell : Cell} (hc : cell.InScope w) :
    ∀ v ∈ w.heap.contents cell, v.Below w.heap.cells.size := by
  intro v hv
  cases cell with
  | list items => exact below_of_inScope (hc v hv)
  | tuple items => exact below_of_inScope (hc v hv)
  | mapping es =>
    obtain ⟨e, he, rfl⟩ := List.mem_map.mp hv
    exact below_of_inScope (hc.2 e he).2
  | view base =>
    obtain ⟨es, hes⟩ := Option.isSome_iff_exists.mp hc.2
    rw [Heap.contents, hes] at hv
    exact hw.tidy.closed.entries hes v hv

private theorem stored_step {allowed : CellId → Prop} (hw : w.Stored) (h : w.Step allowed w') :
    w'.Stored := by
  cases h with
  | same => exact hw
  | app a _ => exact hw.of_sameTrees (sameTrees_pushApp w a)
  | stack a name => exact hw.withStack a name
  | child parent hp _ _ _ hn => exact hw.withChild hp hn
  | property n key v _ _ _ _ hv =>
    refine Stored.of_sameTrees (hw.withHeap ?_ ?_) (sameTrees_markBuilding ..)
    · exact hw.tidy.setEntry (below_of_inScope hv)
    · exact Heap.extends_setEntry ..
  | override n segments v _ _ _ _ hv =>
    refine Stored.of_sameTrees (hw.withHeap ?_ ?_) (sameTrees_markBuilding ..)
    · exact hw.tidy.setNested (below_of_inScope hv)
    · exact Heap.extends_setNested ..
  | keep cell hc =>
    refine hw.withHeap (hw.tidy.alloc (contents_below hw hc) ?_) (Heap.extends_alloc ..)
    rintro es rfl
    exact hc.1
  | push list item _ _ hi =>
    exact hw.withHeap (hw.tidy.pushItem (below_of_inScope hi)) (Heap.extends_pushItem ..)
  | put mapping key v _ _ _ hv =>
    exact hw.withHeap (hw.tidy.setEntry (below_of_inScope hv)) (Heap.extends_setEntry ..)
  | closed locked => exact hw.of_sameTrees (sameTrees_foldl_close locked w)

private theorem stored_start : Stored {} where
  tidy := ⟨fun id v hv => by simp [Heap.parts] at hv, fun hes => by simp at hes⟩
  own n hn := absurd hn (Nat.not_lt_zero n)

/-- On what is reached, nodes have mappings of their own on a tidy heap. -/
theorem Reached.stored (hw : Reached w) : w.Stored :=
  hw.invariant stored_start fun _ _ hw h => stored_step hw h

/-- The mapping of a node is there. -/
theorem Stored.lt_size (hw : w.Stored) {n : NodeId} (hn : n < w.nodes.size) {c : CellId}
    (hc : (w.node n).properties = .cell c) : c < w.heap.cells.size := by
  obtain ⟨d, es, hd, hes, -⟩ := hw.own n hn
  rw [hc] at hd
  cases hd
  exact Heap.lt_size_of_getElem? hes

/-- The mapping of a node is that which it keeps its properties in. -/
theorem Stored.properties_eq (hw : w.Stored) {n : NodeId} (hn : n < w.nodes.size) :
    (w.node n).properties = .cell (w.propertyCell n) := by
  obtain ⟨c, es, hc, -⟩ := hw.own n hn
  rw [propertyCell, hc]

/-- No two nodes keep their properties in one mapping. -/
def OwnApart (w : Workspace) : Prop :=
  ∀ ⦃m n : NodeId⦄ ⦃c : CellId⦄, m < w.nodes.size → n < w.nodes.size →
    (w.node m).properties = .cell c → (w.node n).properties = .cell c → m = n

/-- A new node with a new mapping for its properties stands apart. -/
private theorem OwnApart.add (hw : w.OwnApart) (hstored : w.Stored)
    (hsize : w'.nodes.size = w.nodes.size + 1)
    (hprops : ∀ n, (w'.node n).properties =
      if n = w.nodes.size then .cell w.heap.cells.size else (w.node n).properties) :
    w'.OwnApart := by
  intro m n c hm hn hmc hnc
  rw [hsize] at hm hn
  rw [hprops] at hmc hnc
  have hold {k : NodeId} (hk : k < w.nodes.size + 1) (hne : k ≠ w.nodes.size) : k < w.nodes.size :=
    Nat.lt_of_le_of_ne (Nat.le_of_lt_succ hk) hne
  by_cases hm' : m = w.nodes.size
  · by_cases hn' : n = w.nodes.size
    · rw [hm', hn']
    · rw [if_pos hm'] at hmc
      rw [if_neg hn', ← hmc] at hnc
      exact absurd (hstored.lt_size (hold hn hn') hnc) (Nat.lt_irrefl _)
  · rw [if_neg hm'] at hmc
    by_cases hn' : n = w.nodes.size
    · rw [if_pos hn', ← hmc] at hnc
      exact absurd (hstored.lt_size (hold hm hm') hnc.symm) (Nat.lt_irrefl _)
    · rw [if_neg hn'] at hnc
      exact hw (hold hm hm') (hold hn hn') hmc hnc

/-- On what is reached, no two nodes share a mapping of their own. -/
theorem Reached.ownApart (hw : Reached w) : w.OwnApart := by
  refine hw.growth_invariant (P := OwnApart) ?_ ?_
  · exact fun m n c hm => absurd hm (Nat.not_lt_zero m)
  · intro w w' hreached hw h
    cases h with
    | none hsize hcore =>
      have hprops (n : NodeId) : (w'.node n).properties = (w.node n).properties := by
        rw [← Node.properties_core, hcore, Node.properties_core]
      intro m n c hm hn hmc hnc
      rw [hprops] at hmc hnc
      exact hw (hsize ▸ hm) (hsize ▸ hn) hmc hnc
    | stack a name =>
      apply hw.add hreached.stored (size_withStack ..)
      intro n
      rw [node_withStack]
      split <;> rfl
    | child parent hp _ hn =>
      apply hw.add hreached.stored (size_withChild ..)
      exact properties_withChild hp _ _

end Groundplan.Workspace
