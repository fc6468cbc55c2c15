import Groundplan.Proofs.Workspace.Step

/-!
# Nodes after a step

What each operation does to each node. Two workspaces have the same trees if they differ at most in
the lifecycle of their stacks and in their apps; closing a stack or moving it on to building leads to
such a one, and all that is said of paths, ids, tokens and walks stays as it was.
-/

namespace Groundplan.Workspace

variable {w w' : Workspace}

/-- A changed node is changed, the others are as they were. -/
theorem node_modifyNode (w : Workspace) (n : NodeId) (f : Node → Node) (m : NodeId) :
    (w.modifyNode n f).node m = if m = n ∧ n < w.nodes.size then f (w.node m) else w.node m := by
  simp only [modifyNode, node, Array.getD_eq_getD_getElem?, Array.getElem?_modify]
  by_cases hmn : n = m
  · subst hmn
    by_cases hn : n < w.nodes.size
    · simp [hn]
    · simp [hn]
  · simp [hmn, Ne.symm hmn]

@[simp] theorem size_modifyNode (w : Workspace) (n : NodeId) (f : Node → Node) :
    (w.modifyNode n f).nodes.size = w.nodes.size := by simp [modifyNode]

/-- Beyond the nodes that are there stand nodes without anything. -/
theorem node_of_size_le {n : NodeId} (hn : w.nodes.size ≤ n) : w.node n = {} := by
  simp [node, Array.getD_eq_getD_getElem?, Array.getElem?_eq_none hn]

/-- At first there are no nodes. -/
@[simp] theorem node_start (n : NodeId) : node {} n = {} := node_of_size_le (Nat.zero_le n)

/-- A node that has anything is there. -/
theorem lt_size_of_node_ne {n : NodeId} (h : w.node n ≠ {}) : n < w.nodes.size :=
  Nat.lt_of_not_le fun hn => h (node_of_size_le hn)

/-- A node that is no group is there. -/
theorem lt_size_of_kind_ne {n : NodeId} (h : (w.node n).kind ≠ .group) : n < w.nodes.size :=
  lt_size_of_node_ne fun hn => h (by rw [hn])

/-- The blocks below a stack are there. -/
theorem lt_size_of_mem_blockNodes {s n : NodeId} (hn : n ∈ w.blockNodes s) : n < w.nodes.size :=
  lt_size_of_kind_ne (by simpa using (List.mem_filter.mp hn).2)

/-- A new node is the last one. -/
theorem node_addOwning (w : Workspace) (n : Node) (es : Entries Value) (m : NodeId) :
    (w.addOwning n es).1.node m =
      if m = w.nodes.size then { n with properties := .cell w.heap.cells.size } else w.node m := by
  simp only [addOwning, addNode, withHeap, Heap.alloc, node, Array.getD_eq_getD_getElem?,
    Array.getElem?_push]
  split <;> simp

/-- The same nodes but for the lifecycle of stacks, over the same heap. -/
structure SameTrees (w w' : Workspace) : Prop where
  size_eq : w'.nodes.size = w.nodes.size
  heap_eq : w'.heap = w.heap
  node_eq : ∀ n, ∃ s : Option StackInfo, s.isSome = (w.node n).stack.isSome ∧
    w'.node n = { w.node n with stack := s }

namespace SameTrees

@[refl] theorem refl (w : Workspace) : SameTrees w w := ⟨rfl, rfl, fun _ => ⟨_, rfl, rfl⟩⟩

theorem trans {w'' : Workspace} (h : SameTrees w w') (h' : SameTrees w' w'') :
    SameTrees w w'' where
  size_eq := h'.size_eq.trans h.size_eq
  heap_eq := h'.heap_eq.trans h.heap_eq
  node_eq n := by
    obtain ⟨s, hs, he⟩ := h.node_eq n
    obtain ⟨s', hs', he'⟩ := h'.node_eq n
    refine ⟨s', ?_, ?_⟩
    · rw [hs', he, hs]
    · rw [he', he]

variable (h : SameTrees w w') (n : NodeId)
include h

theorem id_eq : (w'.node n).id = (w.node n).id := by
  obtain ⟨s, -, he⟩ := h.node_eq n
  rw [he]

theorem kind_eq : (w'.node n).kind = (w.node n).kind := by
  obtain ⟨s, -, he⟩ := h.node_eq n
  rw [he]

theorem typeTag_eq : (w'.node n).typeTag = (w.node n).typeTag := by
  obtain ⟨s, -, he⟩ := h.node_eq n
  rw [he]

theorem properties_eq : (w'.node n).properties = (w.node n).properties := by
  obtain ⟨s, -, he⟩ := h.node_eq n
  rw [he]

theorem parent_eq : (w'.node n).parent = (w.node n).parent := by
  obtain ⟨s, -, he⟩ := h.node_eq n
  rw [he]

theorem children_eq : (w'.node n).children = (w.node n).children := by
  obtain ⟨s, -, he⟩ := h.node_eq n
  rw [he]

theorem index_eq : (w'.node n).index = (w.node n).index := by
  obtain ⟨s, -, he⟩ := h.node_eq n
  rw [he]

theorem upward_eq (fuel : Nat) : w'.upward fuel n = w.upward fuel n := by
  induction fuel generalizing n with
  | zero => rfl
  | succ fuel ih => simp only [upward, h.parent_eq, ih]

theorem lineage_eq : w'.lineage n = w.lineage n := by
  rw [lineage, lineage, h.size_eq, h.upward_eq]

theorem root_eq : w'.root n = w.root n := by
  rw [root, root, h.lineage_eq]

theorem scopePath_eq : w'.scopePath n = w.scopePath n := by
  simp only [scopePath, h.lineage_eq, h.id_eq]

theorem logicalId_eq : w'.logicalId n = w.logicalId n := by
  simp only [logicalId, h.scopePath_eq, h.id_eq]

theorem downward_eq (fuel : Nat) : w'.downward fuel n = w.downward fuel n := by
  induction fuel generalizing n with
  | zero => rfl
  | succ fuel ih =>
    have hd : w'.downward fuel = w.downward fuel := funext fun m => ih m
    rw [downward, downward, h.children_eq, hd]

theorem walk_eq : w'.walk n = w.walk n := by
  rw [walk, walk, h.size_eq, h.downward_eq]

theorem blockNodes_eq : w'.blockNodes n = w.blockNodes n := by
  simp only [blockNodes, h.walk_eq, h.kind_eq]

theorem propertiesOf_eq : w'.propertiesOf n = w.propertiesOf n := by
  rw [propertiesOf, propertiesOf, h.heap_eq, h.properties_eq]

omit n in
theorem token_eq : w'.token = w.token := by
  funext r
  simp only [token, h.kind_eq, h.typeTag_eq, h.logicalId_eq]

end SameTrees

/-- Changing the lifecycle of one stack keeps the trees. -/
private theorem sameTrees_modifyStack (w : Workspace) (n : NodeId) (f : StackInfo → StackInfo) :
    SameTrees w (w.modifyNode n fun node => { node with stack := node.stack.map f }) where
  size_eq := size_modifyNode ..
  heap_eq := rfl
  node_eq m := by
    rw [node_modifyNode]
    split
    · exact ⟨_, by simp, rfl⟩
    · exact ⟨_, rfl, rfl⟩

/-- Closing a stack keeps the trees. -/
theorem sameTrees_close (w : Workspace) (stack : NodeId) : SameTrees w (w.close stack) :=
  sameTrees_modifyStack ..

/-- Closing stacks keeps the trees. -/
theorem sameTrees_foldl_close (locked : List NodeId) (w : Workspace) :
    SameTrees w (locked.foldl close w) := by
  induction locked generalizing w with
  | nil => exact .refl w
  | cons s locked ih => exact (sameTrees_close w s).trans (ih _)

/-- Moving a stack on to building keeps the trees. -/
theorem sameTrees_markBuilding (w : Workspace) (n : NodeId) : SameTrees w (w.markBuilding n) :=
  sameTrees_modifyStack ..

/-- A new app keeps the trees. -/
theorem sameTrees_pushApp (w : Workspace) (a : App) :
    SameTrees w { w with apps := w.apps.push a } :=
  ⟨rfl, rfl, fun _ => ⟨_, rfl, rfl⟩⟩

/-- The nodes after one was attached. -/
theorem node_attach_addOwning {parent : NodeId} (hp : parent < w.nodes.size) (n : Node)
    (es : Entries Value) (m : NodeId) :
    ((w.addOwning n es).1.attach parent w.nodes.size).node m =
      if m = w.nodes.size then
        { n with properties := .cell w.heap.cells.size, parent := some parent }
      else if m = parent then
        { w.node m with
          children := (w.node m).children ++ [w.nodes.size]
          index := (n.id, w.nodes.size) :: (w.node m).index }
      else w.node m := by
  have hsize : (w.addOwning n es).1.nodes.size = w.nodes.size + 1 := by
    simp [addOwning, addNode, withHeap]
  simp only [attach, node_modifyNode, node_addOwning, hsize, size_modifyNode]
  by_cases hm : m = w.nodes.size
  · simp [hm, Nat.ne_of_gt hp]
  · by_cases hmp : m = parent
    · subst hmp
      simp [hm, Nat.lt_succ_of_lt hp]
    · simp [hm, hmp]

/-- The nodes after one was declared below a parent, but for lifecycles. -/
theorem sameTrees_withChild (w : Workspace) (parent : NodeId) (n : Node) (es : Entries Value) :
    SameTrees ((w.addOwning n es).1.attach parent w.nodes.size) (w.withChild parent n es) :=
  sameTrees_markBuilding ..

section withChild

variable {parent : NodeId} (hp : parent < w.nodes.size) (n : Node) (es : Entries Value) (m : NodeId)
include hp

theorem parent_withChild : ((w.withChild parent n es).node m).parent =
    if m = w.nodes.size then some parent else (w.node m).parent := by
  rw [(sameTrees_withChild w parent n es).parent_eq, node_attach_addOwning hp]
  split
  · rfl
  · split <;> rfl

theorem children_withChild : ((w.withChild parent n es).node m).children =
    if m = w.nodes.size then n.children
    else if m = parent then (w.node m).children ++ [w.nodes.size] else (w.node m).children := by
  rw [(sameTrees_withChild w parent n es).children_eq, node_attach_addOwning hp]
  split
  · rfl
  · split <;> rfl

theorem index_withChild : ((w.withChild parent n es).node m).index =
    if m = w.nodes.size then n.index
    else if m = parent then (n.id, w.nodes.size) :: (w.node m).index else (w.node m).index := by
  rw [(sameTrees_withChild w parent n es).index_eq, node_attach_addOwning hp]
  split
  · rfl
  · split <;> rfl

theorem id_withChild : ((w.withChild parent n es).node m).id =
    if m = w.nodes.size then n.id else (w.node m).id := by
  rw [(sameTrees_withChild w parent n es).id_eq, node_attach_addOwning hp]
  split
  · rfl
  · split <;> rfl

theorem kind_withChild : ((w.withChild parent n es).node m).kind =
    if m = w.nodes.size then n.kind else (w.node m).kind := by
  rw [(sameTrees_withChild w parent n es).kind_eq, node_attach_addOwning hp]
  split
  · rfl
  · split <;> rfl

theorem properties_withChild : ((w.withChild parent n es).node m).properties =
    if m = w.nodes.size then .cell w.heap.cells.size else (w.node m).properties := by
  rw [(sameTrees_withChild w parent n es).properties_eq, node_attach_addOwning hp]
  split
  · rfl
  · split <;> rfl

end withChild

/-- The nodes after a stack was created. -/
theorem node_withStack (w : Workspace) (a : AppId) (name : String) (m : NodeId) :
    (w.withStack a name).node m =
      if m = w.nodes.size then
        { id := name, stack := some { app := some a }, properties := .cell w.heap.cells.size }
      else w.node m := by
  change (w.addOwning _ []).1.node m = _
  exact node_addOwning ..

@[simp] theorem size_withStack (w : Workspace) (a : AppId) (name : String) :
    (w.withStack a name).nodes.size = w.nodes.size + 1 := by
  simp [withStack, addOwning, addNode, withHeap, modifyApp]

@[simp] theorem size_withChild (w : Workspace) (parent : NodeId) (n : Node) (es : Entries Value) :
    (w.withChild parent n es).nodes.size = w.nodes.size + 1 := by
  simp [withChild, markBuilding, attach, addOwning, addNode, withHeap]

@[simp] theorem heap_withStack (w : Workspace) (a : AppId) (name : String) :
    (w.withStack a name).heap = (w.heap.alloc (.mapping [])).1 := rfl

@[simp] theorem heap_withChild (w : Workspace) (parent : NodeId) (n : Node) (es : Entries Value) :
    (w.withChild parent n es).heap = (w.heap.alloc (.mapping es)).1 := rfl

@[simp] theorem node_withHeap (w : Workspace) (h : Heap) (n : NodeId) :
    (w.withHeap h).node n = w.node n := rfl

@[simp] theorem upward_withHeap (w : Workspace) (h : Heap) (fuel : Nat) (n : NodeId) :
    (w.withHeap h).upward fuel n = w.upward fuel n := by
  induction fuel generalizing n with
  | zero => rfl
  | succ fuel ih => simp only [upward, node_withHeap, ih]

@[simp] theorem root_withHeap (w : Workspace) (h : Heap) (n : NodeId) :
    (w.withHeap h).root n = w.root n := by
  have hsize : (w.withHeap h).nodes = w.nodes := rfl
  simp only [root, lineage, hsize, upward_withHeap]

end Groundplan.Workspace
