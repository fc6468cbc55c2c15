import Groundplan.Proofs.Workspace.Nodes

/-!
# Growth

No request takes a node away or changes what it was declared as: its id, kind and type, its place
below a parent, the mapping that it keeps its properties in, and the app of a stack. So what every
node is declared with holds of every node that is reached.
-/

namespace Groundplan

/-- What a node was declared as, with nothing of its children and its lifecycle. -/
def Node.core (n : Node) : Node :=
  { n with
    children := []
    index := []
    stack := n.stack.map fun s => { s with state := .empty } }

/-- The app of a stack. -/
def Node.app? (n : Node) : Option AppId := n.stack.bind (·.app)

namespace Node

@[simp] theorem id_core (n : Node) : n.core.id = n.id := rfl

@[simp] theorem kind_core (n : Node) : n.core.kind = n.kind := rfl

@[simp] theorem typeTag_core (n : Node) : n.core.typeTag = n.typeTag := rfl

@[simp] theorem properties_core (n : Node) : n.core.properties = n.properties := rfl

@[simp] theorem parent_core (n : Node) : n.core.parent = n.parent := rfl

@[simp] theorem isStack_core (n : Node) : n.core.isStack = n.isStack := Option.isSome_map

@[simp] theorem app?_core (n : Node) : n.core.app? = n.app? := by
  unfold app? core
  cases n.stack <;> rfl

end Node

namespace Workspace

variable {w w' w'' : Workspace}

/-- Nodes are only added, and those that are there stay what they were declared as. -/
structure Grows (w w' : Workspace) : Prop where
  size_le : w.nodes.size ≤ w'.nodes.size
  core_eq : ∀ n < w.nodes.size, (w'.node n).core = (w.node n).core

namespace Grows

@[refl] theorem refl (w : Workspace) : Grows w w := ⟨Nat.le_refl _, fun _ _ => rfl⟩

theorem trans (h : Grows w w') (h' : Grows w' w'') : Grows w w'' where
  size_le := Nat.le_trans h.size_le h'.size_le
  core_eq n hn := (h'.core_eq n (Nat.lt_of_lt_of_le hn h.size_le)).trans (h.core_eq n hn)

variable (h : Grows w w') {n : NodeId} (hn : n < w.nodes.size)
include h hn

theorem id_eq : (w'.node n).id = (w.node n).id := by
  rw [← Node.id_core, h.core_eq n hn, Node.id_core]

theorem kind_eq : (w'.node n).kind = (w.node n).kind := by
  rw [← Node.kind_core, h.core_eq n hn, Node.kind_core]

theorem typeTag_eq : (w'.node n).typeTag = (w.node n).typeTag := by
  rw [← Node.typeTag_core, h.core_eq n hn, Node.typeTag_core]

theorem properties_eq : (w'.node n).properties = (w.node n).properties := by
  rw [← Node.properties_core, h.core_eq n hn, Node.properties_core]

theorem parent_eq : (w'.node n).parent = (w.node n).parent := by
  rw [← Node.parent_core, h.core_eq n hn, Node.parent_core]

theorem isStack_eq : (w'.node n).isStack = (w.node n).isStack := by
  rw [← Node.isStack_core, h.core_eq n hn, Node.isStack_core]

end Grows

/-- The declarations of nodes after a lifecycle moved on. -/
private theorem core_modifyStack (w : Workspace) (n : NodeId) {f : StackInfo → StackInfo}
    (hf : ∀ s, (f s).app = s.app) (m : NodeId) :
    ((w.modifyNode n fun node => { node with stack := node.stack.map f }).node m).core =
      (w.node m).core := by
  rw [node_modifyNode]
  split
  · unfold Node.core
    cases (w.node m).stack <;> simp [hf]
  · rfl

@[simp] theorem core_close (w : Workspace) (stack m : NodeId) :
    ((w.close stack).node m).core = (w.node m).core := by
  apply core_modifyStack
  exact fun _ => rfl

@[simp] theorem core_markBuilding (w : Workspace) (n m : NodeId) :
    ((w.markBuilding n).node m).core = (w.node m).core := by
  apply core_modifyStack
  exact fun _ => rfl

@[simp] theorem core_foldl_close (locked : List NodeId) (w : Workspace) (m : NodeId) :
    ((locked.foldl close w).node m).core = (w.node m).core := by
  induction locked generalizing w with
  | nil => rfl
  | cons s locked ih => rw [List.foldl_cons, ih, core_close]

/-- The declarations of nodes after a stack was created. -/
theorem core_withStack (w : Workspace) (a : AppId) (name : String) (m : NodeId) :
    ((w.withStack a name).node m).core =
      if m = w.nodes.size then
        { id := name, stack := some { app := some a }, properties := .cell w.heap.cells.size }
      else (w.node m).core := by
  rw [node_withStack]
  split <;> rfl

/-- The declarations of nodes after one was declared below a parent. -/
theorem core_withChild (w : Workspace) {parent : NodeId} (hp : parent < w.nodes.size) (n : Node)
    (es : Entries Value) (m : NodeId) :
    ((w.withChild parent n es).node m).core =
      if m = w.nodes.size then
        { n.core with properties := .cell w.heap.cells.size, parent := some parent }
      else (w.node m).core := by
  rw [withChild, core_markBuilding, node_attach_addOwning hp]
  split
  · rfl
  · split <;> rfl

@[simp] theorem size_foldl_close (locked : List NodeId) (w : Workspace) :
    (locked.foldl close w).nodes.size = w.nodes.size := (sameTrees_foldl_close locked w).size_eq

@[simp] theorem size_markBuilding (w : Workspace) (n : NodeId) :
    (w.markBuilding n).nodes.size = w.nodes.size := (sameTrees_markBuilding w n).size_eq

/-- What a step adds to the trees: nothing, a stack or a child. -/
inductive Growth (w : Workspace) : Workspace → Prop
  | none {w' : Workspace} (size_eq : w'.nodes.size = w.nodes.size)
      (core_eq : ∀ n, (w'.node n).core = (w.node n).core)
      (registry_eq : ∀ a, (w'.app a).registry = (w.app a).registry) : Growth w w'
  | stack (a : AppId) (name : String) (ha : a < w.apps.size) (hid : IsIdentifier name)
      (hfree : w.findStack a name = Option.none) : Growth w (w.withStack a name)
  | child (parent : NodeId) {n : Node} {es : Entries Value} (hp : parent < w.nodes.size)
      (hplace : w.Vacant parent n.id) (hn : w.Declared n es) : Growth w (w.withChild parent n es)

@[simp] theorem apps_foldl_close (locked : List NodeId) (w : Workspace) :
    (locked.foldl close w).apps = w.apps := by
  induction locked generalizing w with
  | nil => rfl
  | cons s locked ih => exact ih (w.close s)

/-- A new app has no stacks. -/
private theorem registry_pushApp (w : Workspace) {a : App} (ha : a.registry = []) (b : AppId) :
    (app { w with apps := w.apps.push a } b).registry = (w.app b).registry := by
  simp only [app, Array.getD_eq_getD_getElem?, Array.getElem?_push]
  split
  · next hb =>
    subst hb
    simp [ha]
  · rfl

/-- Each step adds to the trees in one of these ways. -/
theorem Step.growth {allowed : CellId → Prop} (h : w.Step allowed w') : w.Growth w' := by
  cases h with
  | same => exact .none rfl (fun _ => rfl) fun _ => rfl
  | app a ha => exact .none rfl (fun _ => rfl) fun b => registry_pushApp w ha b
  | stack a name ha hid hfree => exact .stack a name ha hid hfree
  | child parent hp hopen hid hfree hn => exact .child parent hp ⟨hopen, hid, hfree⟩ hn
  | property n => exact .none (size_markBuilding _ n) (core_markBuilding _ n) fun _ => rfl
  | override n => exact .none (size_markBuilding _ n) (core_markBuilding _ n) fun _ => rfl
  | keep => exact .none rfl (fun _ => rfl) fun _ => rfl
  | push => exact .none rfl (fun _ => rfl) fun _ => rfl
  | put => exact .none rfl (fun _ => rfl) fun _ => rfl
  | closed locked =>
    refine .none (size_foldl_close locked w) (core_foldl_close locked w) fun a => ?_
    simp only [Workspace.app, apps_foldl_close]

/-- Nothing that is added takes a node away or declares it anew. -/
theorem Growth.grows (h : w.Growth w') : Grows w w' := by
  cases h with
  | none hsize hcore => exact ⟨Nat.le_of_eq hsize.symm, fun n _ => hcore n⟩
  | stack a name =>
    refine ⟨by simp, fun n hn => ?_⟩
    rw [core_withStack, if_neg (Nat.ne_of_lt hn)]
  | child parent hp =>
    refine ⟨by simp, fun n hn => ?_⟩
    rw [core_withChild w hp, if_neg (Nat.ne_of_lt hn)]

/-- What is added keeps its properties in a mapping that is new as well. -/
theorem Growth.properties_eq_of_new (h : w.Growth w') {n : NodeId} (hnew : w.nodes.size ≤ n)
    (hn : n < w'.nodes.size) : (w'.node n).properties = .cell w.heap.cells.size := by
  cases h with
  | none hsize => exact absurd (hsize ▸ hn) (Nat.not_lt_of_le hnew)
  | stack a name =>
    rw [size_withStack] at hn
    rw [node_withStack, if_pos (Nat.le_antisymm (Nat.le_of_lt_succ hn) hnew)]
  | child parent hp =>
    rw [size_withChild] at hn
    rw [properties_withChild hp, if_pos (Nat.le_antisymm (Nat.le_of_lt_succ hn) hnew)]

/-- What holds of declarations stays so if it holds of a new stack and of a new child. -/
theorem Growth.forall_core {P : Node → Prop} (h : w.Growth w')
    (stack : ∀ a name, IsIdentifier name → ∀ c : CellId,
      P { id := name, stack := some { app := some a }, properties := .cell c })
    (child : ∀ parent n es, IsIdentifier n.id → w.Declared n es → ∀ c : CellId,
      P { n.core with properties := .cell c, parent := some parent })
    (hw : ∀ n < w.nodes.size, P (w.node n).core) : ∀ n < w'.nodes.size, P (w'.node n).core := by
  intro n hn
  cases h with
  | none hsize hcore =>
    rw [hcore]
    exact hw n (hsize ▸ hn)
  | stack a name _ hid =>
    rw [size_withStack] at hn
    rw [core_withStack]
    split
    · exact stack a name hid _
    · next hne => exact hw n (Nat.lt_of_le_of_ne (Nat.le_of_lt_succ hn) hne)
  | child parent hp hplace hm =>
    rw [size_withChild] at hn
    rw [core_withChild w hp]
    split
    · exact child parent _ _ hplace.isIdentifier hm _
    · next hne => exact hw n (Nat.lt_of_le_of_ne (Nat.le_of_lt_succ hn) hne)

/-- A request in scope adds to the trees in one of these ways, whether it is answered or refused. -/
theorem growth_perform {call : Call} (hc : call.InScope w) : w.Growth (w.perform call).workspace := by
  have hstep : w.Step (fun _ => True) (w.perform call).workspace :=
    step_perform hc fun _ _ => trivial
  exact hstep.growth

/-- What holds at first and is kept by all that is added holds of what is reached. -/
theorem Reached.growth_invariant {P : Workspace → Prop} (start : P {})
    (step : ∀ w w', Reached w → P w → w.Growth w' → P w') (hw : Reached w) : P w := by
  induction hw with
  | start => exact start
  | step hw call hc ih => exact step _ _ hw ih (growth_perform hc)

/-- Nodes that are there stay as declared when a request in scope is answered or refused. -/
theorem grows_perform {call : Call} (hc : call.InScope w) : Grows w (w.perform call).workspace :=
  (growth_perform hc).grows

/-- Nodes that are there stay as declared however work on them goes on. -/
theorem grows_run {calls : List Call} (hc : Call.AllInScope w calls) : Grows w (w.run calls) := by
  induction calls generalizing w with
  | nil => exact .refl w
  | cons call calls ih => exact (grows_perform hc.1).trans (ih hc.2)

end Workspace

end Groundplan
