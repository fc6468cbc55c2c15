import Groundplan.Proofs.Workspace.Forest
import Groundplan.Proofs.Workspace.Growth

/-!
# Trees of constructs

Whatever is asked of a workspace, and whether or not it is refused, each stack stays the root of a
finite tree. Parents and children know each other, siblings have different ids and are found by them,
the names of an app's stacks are different and lead to them, and a walk from a stack meets every node
attached below it once. Ids and type tags are identifiers; only a block that was asked for without a
type has none.
-/

namespace Groundplan

/-- A request for a resource, data source or provider names a type. -/
def Call.givesType : Call → Bool
  | .addBlock _ _ typeTag _ _ => !typeTag.isNull
  | _ => true

namespace Workspace

variable {w w' : Workspace}

section WellDeclared

/-- What is proper of a node by itself: its names are identifiers, it is a stack or has a parent, and
a stack is a group. -/
structure WellDeclared (n : Node) : Prop where
  isIdentifier : IsIdentifier n.id
  tag : ∀ t ∈ n.typeTag, IsIdentifier t
  parent_eq_none_iff : n.parent = none ↔ n.isStack = true
  kind_eq : n.isStack = true → n.kind = .group

private theorem Declared.wellDeclared {n : Node} {es : Entries Value} (h : w.Declared n es)
    (hid : IsIdentifier n.id) (parent : NodeId) (c : CellId) :
    WellDeclared { n.core with properties := .cell c, parent := some parent } where
  isIdentifier := hid
  tag := by
    cases h with
    | typed id kind typeTag htag => exact htag
    | typedWith id kind typeTag htag => exact htag
    | _ => simp
  parent_eq_none_iff := by cases h <;> simp [Node.core, Node.isStack]
  kind_eq := by cases h <;> simp [Node.core, Node.isStack]

/-- Nodes are declared properly. -/
theorem Reached.wellDeclared (hw : Reached w) {n : NodeId} (hn : n < w.nodes.size) :
    WellDeclared (w.node n).core := by
  refine hw.growth_invariant (P := fun w => ∀ n < w.nodes.size, WellDeclared (w.node n).core)
    ?_ ?_ n hn
  · exact fun n hn => absurd hn (Nat.not_lt_zero n)
  · intro w w' _ hw h
    refine h.forall_core ?_ (fun parent n es hid hn c => hn.wellDeclared hid parent c) hw
    exact fun a name hid c => ⟨hid, by simp, by simp [Node.isStack], fun _ => rfl⟩

end WellDeclared

section Siblings

/-- Of two children of one node with one id, both are the same. -/
def DistinctSiblings (w : Workspace) : Prop :=
  ∀ ⦃c d p : NodeId⦄, (w.node c).parent = some p → (w.node d).parent = some p →
    (w.node c).id = (w.node d).id → c = d

/-- Looking an id up in the index comes to looking for the last child that has it. -/
theorem Forest.findChild_eq_find? (hw : w.Forest) (n : NodeId) (id : String) :
    w.findChild n id = (w.node n).children.reverse.find? fun c => (w.node c).id == id := by
  rw [findChild, hw.index_eq]
  induction (w.node n).children.reverse with
  | nil => rfl
  | cons c children ih =>
    rw [List.map_cons, List.lookup_cons, List.find?_cons, ih, Bool.beq_comm]

/-- No child is found under an id that no child has. -/
theorem Forest.findChild_eq_none_iff (hw : w.Forest) {n : NodeId} {id : String} :
    w.findChild n id = none ↔ ∀ c ∈ (w.node n).children, (w.node c).id ≠ id := by
  simp [hw.findChild_eq_find?]

private theorem DistinctSiblings.of_grows (hw : w.DistinctSiblings) (h : Grows w w')
    (hold : ∀ {c p : NodeId}, (w'.node c).parent = some p → c < w.nodes.size) :
    w'.DistinctSiblings := by
  intro c d p hc hd hid
  have hclt := hold hc
  have hdlt := hold hd
  rw [h.parent_eq hclt] at hc
  rw [h.parent_eq hdlt] at hd
  rw [h.id_eq hclt, h.id_eq hdlt] at hid
  exact hw hc hd hid

/-- A new child has an id that none of its siblings has. -/
private theorem DistinctSiblings.withChild (hw : w.DistinctSiblings) (hforest : w.Forest)
    {parent : NodeId} (hp : parent < w.nodes.size) {n : Node}
    (hfree : w.findChild parent n.id = none) (es : Entries Value) :
    (w.withChild parent n es).DistinctSiblings := by
  have hnew {m : NodeId} (hm : (w.node m).parent = some parent) : (w.node m).id ≠ n.id :=
    hforest.findChild_eq_none_iff.mp hfree m (hforest.mem_children.mpr hm)
  intro c d p hc hd hid
  rw [parent_withChild hp] at hc hd
  rw [id_withChild hp, id_withChild hp] at hid
  by_cases hcn : c = w.nodes.size
  · by_cases hdn : d = w.nodes.size
    · rw [hcn, hdn]
    · rw [if_pos hcn] at hc hid
      rw [if_neg hdn] at hd hid
      cases hc
      exact absurd hid.symm (hnew hd)
  · rw [if_neg hcn] at hc hid
    by_cases hdn : d = w.nodes.size
    · rw [if_pos hdn] at hd hid
      cases hd
      exact absurd hid (hnew hc)
    · rw [if_neg hdn] at hd hid
      exact hw hc hd hid

/-- Siblings have different ids. -/
theorem Reached.distinctSiblings (hw : Reached w) : w.DistinctSiblings := by
  refine hw.growth_invariant (P := DistinctSiblings) ?_ ?_
  · intro c d p hc
    rw [node_start] at hc
    cases hc
  · intro w w' hreached hw h
    have hgrows := h.grows
    cases h with
    | none hsize => exact hw.of_grows hgrows fun hc => hsize ▸ lt_size_of_parent hc
    | stack a name =>
      apply hw.of_grows hgrows
      intro c p hc
      rw [node_withStack] at hc
      split at hc
      · cases hc
      · exact lt_size_of_parent hc
    | child parent hp hplace _ => exact hw.withChild hreached.forest hp hplace.unused _

/-- A child is found under its id. -/
theorem Reached.findChild_eq_some_iff (hw : Reached w) {n c : NodeId} {id : String} :
    w.findChild n id = some c ↔ c ∈ (w.node n).children ∧ (w.node c).id = id := by
  have hforest := hw.forest
  rw [hforest.findChild_eq_find?]
  constructor
  · intro h
    have hid := List.find?_some h
    have hc := List.mem_of_find?_eq_some h
    exact ⟨List.mem_reverse.mp hc, by simpa using hid⟩
  · rintro ⟨hc, hid⟩
    cases hd : (w.node n).children.reverse.find? fun c => (w.node c).id == id with
    | none =>
      rw [← hforest.findChild_eq_find?] at hd
      exact absurd hid (hforest.findChild_eq_none_iff.mp hd c hc)
    | some d =>
      have hdid := List.find?_some hd
      have hdc := List.mem_reverse.mp (List.mem_of_find?_eq_some hd)
      rw [hw.distinctSiblings (hforest.mem_children.mp hdc) (hforest.mem_children.mp hc)
        (by simpa [hid] using hdid)]

/-- The ids of a node's children are different. -/
theorem Reached.nodup_ids (hw : Reached w) (n : NodeId) :
    ((w.node n).children.map fun c => (w.node c).id).Nodup := by
  rw [List.nodup_iff_pairwise_ne, List.pairwise_map]
  refine (hw.forest.sorted n).imp_of_mem fun hc hd hlt hid => Nat.ne_of_lt hlt ?_
  exact hw.distinctSiblings (hw.forest.mem_children.mp hc) (hw.forest.mem_children.mp hd) hid

end Siblings

section Registered

/-- Every stack is registered with its app under its id, and no two under one. -/
structure Registered (w : Workspace) : Prop where
  nodup_names : ∀ a, ((w.app a).registry.map (·.1)).Nodup
  mem_registry_iff : ∀ {a : AppId} {name : String} {s : NodeId},
    (name, s) ∈ (w.app a).registry ↔ (w.node s).app? = some a ∧ (w.node s).id = name

private theorem Registered.of_core (hw : w.Registered)
    (hcore : ∀ n, (w'.node n).core = (w.node n).core)
    (hregistry : ∀ a, (w'.app a).registry = (w.app a).registry) : w'.Registered where
  nodup_names a := by
    rw [hregistry]
    exact hw.nodup_names a
  mem_registry_iff := by
    intro a name s
    rw [hregistry, ← Node.app?_core, ← Node.id_core, hcore, Node.app?_core, Node.id_core]
    exact hw.mem_registry_iff

private theorem registry_withStack {a : AppId} (ha : a < w.apps.size) (name : String) (b : AppId) :
    ((w.withStack a name).app b).registry =
      if b = a then (w.app b).registry ++ [(name, w.nodes.size)] else (w.app b).registry := by
  have hadd : (w.addOwning { id := name, stack := some { app := some a } } []).1.apps = w.apps := rfl
  simp only [withStack, modifyApp, app, hadd, Array.getD_eq_getD_getElem?, Array.getElem?_modify]
  by_cases hb : b = a
  · subst hb
    simp [ha]
  · simp [hb, Ne.symm hb]

private theorem findStack_eq_none_iff {a : AppId} {name : String} :
    w.findStack a name = none ↔ name ∉ (w.app a).registry.map (·.1) := by
  simp only [findStack, Option.map_eq_none_iff, List.find?_eq_none, List.mem_map, beq_iff_eq,
    not_exists, not_and]

private theorem Registered.withStack (hw : w.Registered) {a : AppId} (ha : a < w.apps.size)
    {name : String} (hfree : w.findStack a name = none) : (w.withStack a name).Registered where
  nodup_names b := by
    rw [registry_withStack ha]
    split
    · next hb =>
      subst hb
      rw [List.map_append, List.nodup_append]
      refine ⟨hw.nodup_names b, List.nodup_singleton _, ?_⟩
      rintro s hs t ht rfl
      obtain rfl := List.mem_singleton.mp ht
      exact findStack_eq_none_iff.mp hfree hs
    · exact hw.nodup_names b
  mem_registry_iff := by
    intro b t s
    have hlast : (w.node w.nodes.size).app? = none := by
      rw [node_of_size_le (Nat.le_refl _)]
      rfl
    rw [registry_withStack ha, node_withStack]
    by_cases hs : s = w.nodes.size
    · -- the new stack was registered nowhere
      subst hs
      have hold : (t, w.nodes.size) ∉ (w.app b).registry := by
        rw [hw.mem_registry_iff, hlast]
        simp
      by_cases hb : b = a
      · simp [hb, hb ▸ hold, Node.app?, eq_comm]
      · simp [hb, hold, Node.app?, Ne.symm hb]
    · by_cases hb : b = a <;> simp [hb, hs, hw.mem_registry_iff]

private theorem Registered.withChild (hw : w.Registered) {parent : NodeId}
    (hp : parent < w.nodes.size) {n : Node} {es : Entries Value} (hn : w.Declared n es) :
    (w.withChild parent n es).Registered where
  nodup_names := hw.nodup_names
  mem_registry_iff := by
    intro a name s
    rw [← Node.app?_core, ← Node.id_core, core_withChild w hp]
    have hregistry : ((w.withChild parent n es).app a).registry = (w.app a).registry := rfl
    rw [hregistry, hw.mem_registry_iff]
    split
    · next hs =>
      have hold : (w.node s).app? = none := by
        rw [node_of_size_le (Nat.le_of_eq hs.symm)]
        rfl
      have hnew : n.stack = none := by cases hn <;> rfl
      rw [hold]
      simp [hnew, Node.app?, Node.core]
    · rw [Node.app?_core, Node.id_core]

/-- Stacks are registered. -/
theorem Reached.registered (hw : Reached w) : w.Registered := by
  refine hw.growth_invariant (P := Registered) ⟨fun a => List.nodup_nil, ?_⟩ ?_
  · intro a name s
    rw [node_start]
    simp [app, Node.app?]
  · intro w w' _ hw h
    cases h with
    | none _ hcore hregistry => exact hw.of_core hcore hregistry
    | stack a name ha _ hfree => exact hw.withStack ha hfree
    | child parent hp _ hn => exact hw.withChild hp hn

end Registered

section Typed

/-- Every resource, data source and provider has a type. -/
def Typed (w : Workspace) : Prop :=
  ∀ n (kind : TypedKind), (w.node n).kind = .block kind.kind → (w.node n).typeTag ≠ none

private theorem Typed.of_core (hw : w.Typed) (hcore : ∀ n, (w'.node n).core = (w.node n).core) :
    w'.Typed := by
  intro n
  rw [← Node.kind_core, ← Node.typeTag_core, hcore]
  exact hw n

private theorem Typed.withStack (hw : w.Typed) (a : AppId) (name : String) :
    (w.withStack a name).Typed := by
  intro n kind
  rw [node_withStack]
  split
  · simp
  · exact hw n kind

private theorem Typed.withChild (hw : w.Typed) {parent : NodeId} (hp : parent < w.nodes.size)
    {n : Node} (hn : ∀ kind : TypedKind, n.kind = .block kind.kind → n.typeTag ≠ none)
    (es : Entries Value) : (w.withChild parent n es).Typed := by
  intro m
  rw [← Node.kind_core, ← Node.typeTag_core, core_withChild w hp]
  split
  · exact hn
  · exact hw m

/-- Only nothing reads as nothing. -/
theorem isNull_of_datum_eq_null {v : Value} (hv : v.InScope w) (h : w.heap.datum v = .null) :
    v.isNull = true := by
  cases v with
  | atom a =>
    rw [Heap.datum, Heap.read_atom] at h
    cases h
    rfl
  | cell id =>
    rw [Heap.datum, Heap.read_cell_succ, if_neg List.not_mem_nil, Heap.layer] at h
    split at h
    · cases h
    · cases h
    · cases h
    · cases h
    · next hid => exact absurd hv (by simpa [Value.InScope] using hid)

/-- A request that names a type leads to no block without one. -/
private theorem typed_perform {call : Call} (hw : w.Typed) (hc : call.InScope w)
    (ht : call.givesType = true) : (w.perform call).workspace.Typed := by
  have heffect := effect_perform w call
  generalize (w.perform call).workspace = w' at heffect
  cases heffect with
  | closing => exact hw.of_core (core_foldl_close _ w)
  | createApp => exact hw.of_core fun _ => rfl
  | createStack a => exact hw.withStack a _
  | addConstruct => exact hw.withChild hc.1 (by simp) _
  | addBlock _ _ hnone =>
    refine hw.withChild hc.1 (fun _ _ hnull => ?_) _
    rw [Call.givesType, isNull_of_datum_eq_null hc.2.1 (hnone hnull)] at ht
    cases ht
  | addOutput => exact hw.withChild hc.1 (by rintro ⟨⟩ <;> simp [TypedKind.kind]) _
  | setProperty => exact hw.of_core (core_markBuilding _ _)
  | addOverride => exact hw.of_core (core_markBuilding _ _)
  | keep => exact hw.of_core fun _ => rfl
  | push => exact hw.of_core fun _ => rfl
  | put => exact hw.of_core fun _ => rfl

/-- Where all requests name a type, all blocks have one. -/
theorem typed_run {calls : List Call} (hw : w.Typed) (hc : Call.AllInScope w calls)
    (ht : ∀ call ∈ calls, call.givesType = true) : (w.run calls).Typed := by
  induction calls generalizing w with
  | nil => exact hw
  | cons call calls ih =>
    obtain ⟨hcall, ht⟩ := List.forall_mem_cons.mp ht
    exact ih (typed_perform hw hc.1 hcall) hc.2 ht

end Typed

/-- The stacks are finite trees in which all can be found. -/
structure Trees (w : Workspace) : Prop where
  /-- A parent is older than its children, so nothing is above itself. -/
  parent_lt : ∀ {n p : NodeId}, (w.node n).parent = some p → p < n
  /-- The parent of a child is the node that lists it. -/
  mem_children_iff : ∀ {n c : NodeId}, c ∈ (w.node n).children ↔ (w.node c).parent = some n
  /-- Just the stacks are below nothing. -/
  parent_eq_none_iff : ∀ n < w.nodes.size, (w.node n).parent = none ↔ (w.node n).isStack = true
  /-- The way up from a node ends at a stack. -/
  root_isStack : ∀ n < w.nodes.size, w.Above (w.root n) n ∧ (w.node (w.root n)).isStack = true
  /-- Children have different ids, whatever their kinds. -/
  nodup_ids : ∀ n, ((w.node n).children.map fun c => (w.node c).id).Nodup
  /-- A child is found under its id, and nothing under any other. -/
  findChild_eq_some_iff : ∀ {n c : NodeId} {id : String},
    w.findChild n id = some c ↔ c ∈ (w.node n).children ∧ (w.node c).id = id
  /-- Ids are identifiers. -/
  id_isIdentifier : ∀ n < w.nodes.size, IsIdentifier (w.node n).id
  /-- Type tags are identifiers. -/
  typeTag_isIdentifier : ∀ n < w.nodes.size, ∀ t ∈ (w.node n).typeTag, IsIdentifier t
  /-- No two stacks of an app have one name. -/
  nodup_names : ∀ a, ((w.app a).registry.map (·.1)).Nodup
  /-- The stacks of an app are found under their names. -/
  mem_registry_iff : ∀ {a : AppId} {name : String} {s : NodeId},
    (name, s) ∈ (w.app a).registry ↔ (w.node s).app? = some a ∧ (w.node s).id = name
  /-- A walk from a stack meets each node of its tree. -/
  mem_walk_iff : ∀ {s n : NodeId}, (w.node s).isStack = true →
    (n ∈ w.walk s ↔ n < w.nodes.size ∧ w.root n = s)
  /-- A walk meets nothing twice. -/
  nodup_walk : ∀ s, (w.walk s).Nodup
  /-- A walk meets a node and then walks from each of its children in order. -/
  walk_eq : ∀ n, w.walk n = n :: (w.node n).children.flatMap w.walk
  /-- A walk from a stack meets a node before its children, and these in order. -/
  sublist_walk : ∀ n, (n :: (w.node n).children).Sublist (w.walk (w.root n))
  /-- Children are listed in the order in which they were attached. -/
  children_sorted : ∀ n, (w.node n).children.Pairwise (· < ·)

/-- A stack is there. -/
theorem lt_size_of_isStack {s : NodeId} (h : (w.node s).isStack = true) : s < w.nodes.size :=
  lt_size_of_node_ne fun hs => by
    rw [hs] at h
    cases h

/-- What is reached consists of stacks that are trees. -/
theorem Reached.trees (hw : Reached w) : w.Trees := by
  have hforest := hw.forest
  have hroot (n : NodeId) (hn : n < w.nodes.size) :
      (w.node n).parent = none ↔ (w.node n).isStack = true := by
    have h := (hw.wellDeclared hn).parent_eq_none_iff
    rwa [Node.parent_core, Node.isStack_core] at h
  refine
    { parent_lt := hforest.parent_lt
      mem_children_iff := hforest.mem_children
      parent_eq_none_iff := hroot
      root_isStack := fun n hn => ⟨hforest.above_root n, ?_⟩
      nodup_ids := hw.nodup_ids
      findChild_eq_some_iff := hw.findChild_eq_some_iff
      id_isIdentifier := fun n hn => (hw.wellDeclared hn).isIdentifier
      typeTag_isIdentifier := fun n hn => (hw.wellDeclared hn).tag
      nodup_names := hw.registered.nodup_names
      mem_registry_iff := hw.registered.mem_registry_iff
      mem_walk_iff := fun {s n} hs => ?_
      nodup_walk := hforest.nodup_downward _
      walk_eq := hforest.walk_eq
      sublist_walk := fun n => hforest.cons_children_sublist_walk (hforest.above_root n)
      children_sorted := hforest.sorted }
  · have hlt := hforest.lt_size_of_above hn (hforest.above_root n)
    exact (hroot _ hlt).mp (hforest.parent_root n)
  · have hlt := lt_size_of_isStack hs
    have hnone := (hroot s hlt).mpr hs
    rw [hforest.mem_walk_iff hlt, hforest.root_eq_iff]
    constructor
    · intro h
      refine ⟨?_, h, hnone⟩
      cases h with
      | refl => exact hlt
      | step hp => exact lt_size_of_parent hp
    · exact fun h => h.2.1

/-- Whatever was asked, answered or refused, the stacks are trees with proper names for ids and types;
and where each resource, data source and provider was asked for with a type, each has one. -/
theorem run_trees {calls : List Call} (hc : Call.AllInScope {} calls) :
    (run {} calls).Trees ∧
      ((∀ call ∈ calls, call.givesType = true) →
        ∀ n (kind : TypedKind), ((run {} calls).node n).kind = .block kind.kind →
          ∃ t, ((run {} calls).node n).typeTag = some t ∧ IsIdentifier t) := by
  have htrees := (Reached.start.run hc).trees
  refine ⟨htrees, fun ht n kind hk => ?_⟩
  have hstart : Typed {} := by
    intro n kind hk
    rw [node_start] at hk
    cases hk
  obtain ⟨t, htag⟩ := Option.ne_none_iff_exists'.mp (typed_run hstart hc ht n kind hk)
  have hn : n < (run {} calls).nodes.size := lt_size_of_kind_ne (by simp [hk])
  exact ⟨t, htag, htrees.typeTag_isIdentifier n hn t htag⟩

/-- Requests of which some are refused: for a name that is taken, and below a stack that is closed. -/
def refusedCalls : List Call :=
  [.createApp "", .createStack 0 (.text "stack"), .createStack 0 (.text "stack"),
    .addBlock 0 .resource (.text "vpc") (.text "main") .null, .addConstruct 0 (.text "main"),
    .synthesize (.atom (.entity (.node 0 true))) true, .setProperty 1 (.text "cidr") .null]

/-- The stack of requests of which some are refused is a tree with typed blocks. -/
theorem run_trees_refused : (run {} refusedCalls).Trees ∧
    ∀ n (kind : TypedKind), ((run {} refusedCalls).node n).kind = .block kind.kind →
      ∃ t, ((run {} refusedCalls).node n).typeTag = some t ∧ IsIdentifier t := by
  have hc : Call.AllInScope {} refusedCalls := by decide +kernel
  obtain ⟨htrees, htyped⟩ := run_trees hc
  exact ⟨htrees, htyped (by decide)⟩

/-- Requests that declare a resource without a type. -/
def typelessCalls : List Call :=
  [.createApp "", .createStack 0 (.text "stack"),
    .addBlock 0 .resource (.atom (.scalar .null)) (.text "main") (.atom (.scalar .null))]

/-- A resource that was asked for without a type is accepted and has none. -/
theorem run_typeless : Call.AllInScope {} typelessCalls ∧
    ((run {} typelessCalls).node 1).kind = .block .resource ∧
    ¬ ∃ t, ((run {} typelessCalls).node 1).typeTag = some t ∧ IsIdentifier t := by
  refine ⟨by decide +kernel, by decide +kernel, ?_⟩
  rintro ⟨t, ht, -⟩
  have hnone : ((run {} typelessCalls).node 1).typeTag = none := by decide +kernel
  rw [hnone] at ht
  cases ht

end Workspace

end Groundplan
