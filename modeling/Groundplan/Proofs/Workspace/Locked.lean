import Groundplan.Proofs.Workspace.Acceptance
import Groundplan.Proofs.Workspace.Stored
import Groundplan.Proofs.Workspace.Trees

/-!
# Closed stacks

Once a stack is closed, each request to declare or change something in its tree is refused: because
the stack is closed, unless what is handed over is found unfit before that is looked at. Nothing else
reaches the tree either. Its nodes and their order stay as they are, and so do the entries of the
mappings in which the nodes keep their properties: a caller cannot name these mappings, and no other
node has them.
-/

namespace Groundplan

/-- The node that a request declares something below, or changes the properties of. -/
def Call.target? : Call → Option NodeId
  | .addConstruct parent _ => some parent
  | .addBlock parent _ _ _ _ => some parent
  | .addOutput parent _ _ _ _ => some parent
  | .setProperty node _ _ => some node
  | .addOverride node _ _ => some node
  | _ => none

namespace Workspace

variable {w w' w'' : Workspace}

section Refusal

private theorem named_outputEntries (value description sensitive : Value) :
    (outputEntries value description sensitive).Named := by
  intro k hk
  have hkeys : k = .text "value" ∨ k = .text "description" ∨ k = .text "sensitive" := by
    simp only [outputEntries, Entries.keys] at hk
    cases description.isNull <;> cases sensitive.isNull <;> simp at hk <;> grind
  rcases hkeys with rfl | rfl | rfl
  · exact ⟨_, rfl, by decide⟩
  · exact ⟨_, rfl, by decide⟩
  · exact ⟨_, rfl, by decide⟩

variable {n : NodeId} (hn : w.state? n = some .synthesized)
include hn

private theorem checkOpen_of_synthesized :
    w.checkOpen n = .error (.locked (w.node (w.root n)).id) := by simp [checkOpen, hn]

private theorem addConstruct_of_synthesized (id : Value) :
    w.addConstruct n id = .error (.locked (w.node (w.root n)).id) := by
  rw [addConstruct, checkOpen_of_synthesized hn]
  rfl

private theorem addEntries_of_synthesized (kind : BlockKind) (typeTag : Option String)
    (id : String) (es : Entries Value) :
    w.addEntries n kind typeTag id es = .error (.locked (w.node (w.root n)).id) := by
  rw [addEntries, checkOpen_of_synthesized hn]
  rfl

private theorem setProperty_of_synthesized (key value : Value) :
    w.setProperty n key value = .error (.locked (w.node (w.root n)).id) := by
  rw [setProperty, checkOpen_of_synthesized hn]
  rfl

private theorem addOverride_of_synthesized (path value : Value) :
    w.addOverride n path value = .error (.locked (w.node (w.root n)).id) := by
  rw [addOverride, checkOpen_of_synthesized hn]
  rfl

variable (hroom : w.limits.checking = none)
include hroom

private theorem addBlock_of_synthesized (kind : TypedKind) (typeTag id properties : Value) :
    ∃ fault, w.addBlock n kind typeTag id properties = .error fault ∧
      (Call.Valid w (.addBlock n kind typeTag id properties) →
        fault = .locked (w.node (w.root n)).id) := by
  unfold addBlock
  cases htag : checkTypeTag w.naming (w.heap.datum typeTag) with
  | error fault =>
    refine ⟨fault, rfl, fun hvalid => ?_⟩
    obtain ⟨tag, hok⟩ := exists_checkTypeTag_eq_ok hvalid.1
    rw [htag] at hok
    cases hok
  | ok tag =>
    cases hid : checkIdentifier w.naming "construct id" (w.heap.datum id) with
    | error fault =>
      refine ⟨fault, rfl, fun hvalid => ?_⟩
      obtain ⟨s, hok⟩ := checkIdentifier_isOk_iff.mpr hvalid.2.1
      rw [hid] at hok
      cases hok
    | ok s =>
      cases hes : w.validProperties (w.path n ++ "/" ++ s) properties with
      | error fault =>
        refine ⟨.property fault, by simp [bind, Except.bind, hes, Except.mapError], fun hvalid => ?_⟩
        obtain ⟨es, hok⟩ := (validProperties_isOk_iff hroom).mpr hvalid.2.2
        rw [hes] at hok
        cases hok
      | ok es =>
        refine ⟨_, ?_, fun _ => rfl⟩
        simp only [bind, Except.bind, hes, Except.mapError]
        exact addEntries_of_synthesized hn _ _ _ _

private theorem addOutput_of_synthesized (id value description sensitive : Value) :
    ∃ fault, w.addOutput n id value description sensitive = .error fault ∧
      (Call.Valid w (.addOutput n id value description sensitive) →
        fault = .locked (w.node (w.root n)).id) := by
  unfold addOutput
  cases hid : checkIdentifier w.naming "construct id" (w.heap.datum id) with
  | error fault =>
    refine ⟨fault, rfl, fun hvalid => ?_⟩
    obtain ⟨s, hok⟩ := checkIdentifier_isOk_iff.mpr hvalid.1
    rw [hid] at hok
    cases hok
  | ok s =>
    cases hes : w.checkProperties (w.path n ++ "/" ++ s)
        (outputEntries value description sensitive) with
    | error fault =>
      refine ⟨.property fault, by simp [bind, Except.bind, hes, Except.mapError], ?_⟩
      rintro ⟨-, hvalue, hdescription, hsensitive⟩
      have hok : w.checkProperties (w.path n ++ "/" ++ s)
          (outputEntries value description sensitive) = .ok () := by
        refine (checkProperties_eq_ok_iff_valid hroom).mpr ⟨named_outputEntries _ _ _, fun v hv => ?_⟩
        rcases mem_values_outputEntries hv with rfl | rfl | rfl
        · exact hvalue
        · exact hdescription
        · exact hsensitive
      rw [hes] at hok
      cases hok
    | ok _ =>
      refine ⟨_, ?_, fun _ => rfl⟩
      simp only [bind, Except.bind, hes, Except.mapError]
      exact addEntries_of_synthesized hn _ _ _ _

/-- In the tree of a closed stack nothing is declared and nothing changed; and where what is handed
over is valid and there is always room, the reason given is that the stack is closed. -/
theorem perform_of_synthesized {call : Call} (hcall : call.target? = some n) :
    ∃ fault, w.perform call = w.refused fault ∧
      (call.Valid w → fault = .locked (w.node (w.root n)).id) := by
  cases call with
  | addConstruct parent id =>
    cases hcall
    refine ⟨_, ?_, fun _ => rfl⟩
    rw [perform, addConstruct_of_synthesized hn]
    rfl
  | addBlock parent kind typeTag id properties =>
    cases hcall
    obtain ⟨fault, hfault, hvalid⟩ := addBlock_of_synthesized hn hroom kind typeTag id properties
    refine ⟨fault, ?_, hvalid⟩
    rw [perform, hfault]
    rfl
  | addOutput parent id value description sensitive =>
    cases hcall
    obtain ⟨fault, hfault, hvalid⟩ := addOutput_of_synthesized hn hroom id value description sensitive
    refine ⟨fault, ?_, hvalid⟩
    rw [perform, hfault]
    rfl
  | setProperty node key value =>
    cases hcall
    refine ⟨_, ?_, fun _ => rfl⟩
    rw [perform, setProperty_of_synthesized hn]
    rfl
  | addOverride node path value =>
    cases hcall
    refine ⟨_, ?_, fun _ => rfl⟩
    rw [perform, addOverride_of_synthesized hn]
    rfl
  | _ => cases hcall

end Refusal

section Frozen

/-- A node and the entries of its own mapping are the same in both. -/
structure Untouched (w w' : Workspace) (n : NodeId) : Prop where
  node_eq : w'.node n = w.node n
  cell_eq : ∀ c, (w.node n).properties = .cell c → w'.heap.cells[c]? = w.heap.cells[c]?

private theorem Untouched.of_heap_eq {n : NodeId} (hnode : w'.node n = w.node n)
    (hheap : w'.heap = w.heap) : Untouched w w' n := ⟨hnode, fun _ _ => by rw [hheap]⟩

/-- Closing a stack that is closed changes nothing. -/
private theorem node_foldl_close {n : NodeId} (locked : List NodeId)
    (hn : ∀ info ∈ (w.node n).stack, info.state = .synthesized) :
    (locked.foldl close w).node n = w.node n := by
  induction locked generalizing w with
  | nil => rfl
  | cons s locked ih =>
    have hclose : (w.close s).node n = w.node n := by
      rw [close, node_modifyNode]
      split
      · cases hstack : (w.node n).stack with
        | none => rw [Option.map_none, ← hstack]
        | some info =>
          have hstate := hn info hstack
          rw [Option.map_some, ← hstate, ← hstack]
      · rfl
    rw [List.foldl_cons, ih (by rwa [hclose]), hclose]

/-- Moving a stack on to building changes no node but its root. -/
private theorem node_markBuilding_of_ne {n m : NodeId} (h : n ≠ w.root m) :
    (w.markBuilding m).node n = w.node n := by
  rw [markBuilding, node_modifyNode, if_neg fun hm => h hm.1]

/-- A new child changes its parent and, it may be, the root. -/
private theorem node_withChild_of_ne (hw : w.Forest) {parent : NodeId} {n : Node}
    {es : Entries Value} (hw' : (w.withChild parent n es).Forest) (hp : parent < w.nodes.size)
    (hn : w.Declared n es) (hid : w.Vacant parent n.id) {m : NodeId} (hm : m < w.nodes.size)
    (hparent : m ≠ parent) (hroot : m ≠ w.root parent) :
    (w.withChild parent n es).node m = w.node m := by
  have hgrows : Grows w (w.withChild parent n es) := (Growth.child parent hp hid hn).grows
  have hsame := (sameTrees_withChild w parent n es).root_eq parent
  rw [hw.root_eq_of_grows hgrows hw' hp] at hsame
  rw [withChild, node_markBuilding_of_ne (hsame ▸ hroot), node_attach_addOwning hp,
    if_neg (Nat.ne_of_lt hm), if_neg hparent]

/-- No other node has the mapping that a node keeps its properties in. -/
private theorem ne_propertyCell (hw : Reached w) {m n : NodeId} (hm : m < w.nodes.size)
    (hn : n < w.nodes.size) (hne : n ≠ m) {c : CellId} (hc : (w.node n).properties = .cell c) :
    c ≠ w.propertyCell m := by
  obtain ⟨d, es, hd, -⟩ := hw.stored.own m hm
  rw [propertyCell, hd]
  rintro rfl
  exact hne (hw.ownApart hn hm hc hd)

/-- No step touches a node in the tree of a closed stack. -/
private theorem untouched_step (hw : Reached w) {n : NodeId} (hn : n < w.nodes.size)
    (hlocked : w.state? n = some .synthesized) {allowed : CellId → Prop}
    (h : w.Step allowed w') : Untouched w w' n := by
  have hforest := hw.forest
  have hlt {c : CellId} (hc : (w.node n).properties = .cell c) : c < w.heap.cells.size :=
    hw.stored.lt_size hn hc
  -- what is asked below an open stack is about another node with another root
  have hapart {m : NodeId} (hm : w.state? m ≠ some .synthesized) : n ≠ m ∧ n ≠ w.root m := by
    constructor
    · rintro rfl
      exact hm hlocked
    · rintro rfl
      rw [state?, ← hforest.root_eq_of_above (hforest.above_root m)] at hlocked
      exact hm hlocked
  have hforest' := hforest.step h
  cases h with
  | same => exact .of_heap_eq rfl rfl
  | app => exact .of_heap_eq rfl rfl
  | stack a name =>
    refine ⟨?_, fun c hc => ?_⟩
    · rw [node_withStack, if_neg (Nat.ne_of_lt hn)]
    · rw [heap_withStack, Heap.getElem?_alloc_of_lt _ _ (hlt hc)]
  | child parent hp hopen hid hfree hchild =>
    refine ⟨?_, fun c hc => ?_⟩
    · exact node_withChild_of_ne hforest hforest' hp hchild ⟨hopen, hid, hfree⟩ hn
        (hapart hopen).1 (hapart hopen).2
    · rw [heap_withChild, Heap.getElem?_alloc_of_lt _ _ (hlt hc)]
  | property m key v hm hopen =>
    refine ⟨node_markBuilding_of_ne ?_, fun c hc => ?_⟩
    · rw [root_withHeap]
      exact (hapart hopen).2
    · exact Heap.getElem?_setEntry_of_ne _ _ _ _ (ne_propertyCell hw hm hn (hapart hopen).1 hc)
  | override m segments v hm hopen =>
    refine ⟨node_markBuilding_of_ne ?_, fun c hc => ?_⟩
    · rw [root_withHeap]
      exact (hapart hopen).2
    · exact Heap.getElem?_setNested_of_ne _ _ (hlt hc)
        (ne_propertyCell hw hm hn (hapart hopen).1 hc)
  | keep cell =>
    refine ⟨rfl, fun c hc => ?_⟩
    exact Heap.getElem?_alloc_of_lt _ _ (hlt hc)
  | push list item hl =>
    refine ⟨rfl, fun c hc => ?_⟩
    obtain ⟨d, es, hd, hes, -⟩ := hw.stored.own n hn
    rw [hc] at hd
    cases hd
    rw [hes]
    exact Heap.getElem?_pushItem_of_mapping.mpr hes
  | put mapping key v _ hfree =>
    refine ⟨rfl, fun c hc => ?_⟩
    apply Heap.getElem?_setEntry_of_ne
    rintro rfl
    exact hfree ⟨n, hn, hc⟩
  | closed locked =>
    refine .of_heap_eq (node_foldl_close locked fun info hinfo => ?_)
      (sameTrees_foldl_close locked w).heap_eq
    -- a stack is its own root
    have hstack : (w.node n).isStack = true := by
      rw [Node.isStack, Option.mem_def.mp hinfo]
      rfl
    have hroot : w.root n = n :=
      hforest.root_eq_iff.mpr ⟨.refl, (hw.trees.parent_eq_none_iff n hn).mpr hstack⟩
    rw [state?, hroot, Option.mem_def.mp hinfo] at hlocked
    simpa using hlocked

/-- The tree below a stack is the same in both: its nodes, their order, and the entries of the mapping
that each keeps its properties in. -/
structure Frozen (w w' : Workspace) (s : NodeId) : Prop where
  walk_eq : w'.walk s = w.walk s
  node_eq : ∀ n ∈ w.walk s, w'.node n = w.node n
  entries_eq : ∀ n ∈ w.walk s,
    w'.heap.entriesOf? (w'.node n).properties = w.heap.entriesOf? (w.node n).properties

theorem Frozen.refl (w : Workspace) (s : NodeId) : Frozen w w s :=
  ⟨rfl, fun _ _ => rfl, fun _ _ => rfl⟩

theorem Frozen.trans {s : NodeId} (h : Frozen w w' s) (h' : Frozen w' w'' s) : Frozen w w'' s where
  walk_eq := h'.walk_eq.trans h.walk_eq
  node_eq n hn := (h'.node_eq n (by rwa [h.walk_eq])).trans (h.node_eq n hn)
  entries_eq n hn := (h'.entries_eq n (by rwa [h.walk_eq])).trans (h.entries_eq n hn)

/-- A stack is its own root. -/
theorem Reached.root_eq_of_isStack (hw : Reached w) {s : NodeId}
    (hs : (w.node s).isStack = true) : w.root s = s :=
  hw.forest.root_eq_iff.mpr
    ⟨.refl, (hw.trees.parent_eq_none_iff s (lt_size_of_isStack hs)).mpr hs⟩

private theorem frozen_perform (hw : Reached w) {s : NodeId} (hs : (w.node s).isStack = true)
    (hlocked : w.state? s = some .synthesized) {call : Call} (hc : call.InScope w) :
    Frozen w (w.perform call).workspace s := by
  have hstep : w.Step (fun _ => True) (w.perform call).workspace :=
    step_perform hc fun _ _ => trivial
  have hwalk (n : NodeId) : n ∈ w.walk s ↔ n < w.nodes.size ∧ w.root n = s :=
    hw.trees.mem_walk_iff hs
  have huntouched (n : NodeId) (hn : n ∈ w.walk s) : Untouched w (w.perform call).workspace n := by
    obtain ⟨hlt, hroot⟩ := (hwalk n).mp hn
    refine untouched_step hw hlt ?_ hstep
    rwa [state?, hroot, ← hw.root_eq_of_isStack hs]
  refine ⟨?_, fun n hn => (huntouched n hn).node_eq, fun n hn => ?_⟩
  · refine hw.forest.walk_congr hstep.growth.grows.size_le fun n hn => ?_
    rw [(huntouched n ((hw.forest.mem_walk_iff (lt_size_of_isStack hs)).mpr hn)).node_eq]
  · obtain ⟨c, es, hc, hes, -⟩ := hw.stored.own n ((hwalk n).mp hn).1
    have hcell := (huntouched n hn).cell_eq c hc
    rw [(huntouched n hn).node_eq, hc, Heap.entriesOf?, Heap.entriesOf?,
      Heap.entries?_of_mapping hes, Heap.entries?_of_mapping (hcell.trans hes)]

/-- Once a stack is closed, its tree stays as it is whatever is asked. -/
theorem frozen_run (hw : Reached w) {s : NodeId} (hs : (w.node s).isStack = true)
    (hlocked : w.state? s = some .synthesized) {calls : List Call}
    (hc : Call.AllInScope w calls) : Frozen w (w.run calls) s := by
  induction calls generalizing w with
  | nil => exact .refl w s
  | cons call calls ih =>
    have hfrozen := frozen_perform hw hs hlocked hc.1
    have hnode := hfrozen.node_eq s ((hw.forest.mem_walk_iff (lt_size_of_isStack hs)).mpr .refl)
    have hw' : Reached (w.perform call).workspace := .step hw call hc.1
    have hs' : ((w.perform call).workspace.node s).isStack = true := by rwa [hnode]
    refine hfrozen.trans (ih hw' hs' ?_ hc.2)
    rw [state?, hw.root_eq_of_isStack hs] at hlocked
    rw [state?, hw'.root_eq_of_isStack hs', hnode, hlocked]

end Frozen

end Workspace

end Groundplan
