import Groundplan.Proofs.Datum.Places
import Groundplan.Proofs.Synthesis.Defects
import Groundplan.Proofs.Synthesis.Layout
import Groundplan.Proofs.Workspace.Referring
import Groundplan.Proofs.Workspace.Trees

/-!
# Integrity of references

In a document that a stack becomes, a token stands in the place of each reference, what a reference
points at is a resource or data source of the same stack, and no chain of references leads back to
where it started, so the blocks can be put in an order in which each comes after all that it depends
on. The kind, type and id in a token are those under which the document holds the block pointed at,
and no other, exactly if that block has a type.
-/

namespace Groundplan

/-- What a document holds under a kind, a type and an id. -/
def Document.instance? (doc : Document) (kind : BlockKind) (type id : String) : Option Datum :=
  ((doc.entriesOf kind).get? (.text type)).bind (·.field? id)

/-- The token of an attribute of what stands under a kind, a type and an id. -/
def tokenText (kind : BlockKind) (type id attr : String) : String :=
  "$\x7b" ++ (if kind = .data then "data." else "") ++ type ++ "." ++ id ++ "." ++ attr ++ "\x7d"

namespace Workspace

/-- The token of a reference has the kind, type and id under which the document holds the block that
the reference points at, and no other. -/
structure Names (w : Workspace) (stack : NodeId) (doc : Document) (r : Reference)
    (kind : BlockKind) (type id : String) : Prop where
  referenceable : kind = .resource ∨ kind = .data
  token_eq : w.token r = tokenText kind type id r.attr
  node_iff : ∀ n, n ∈ w.nodesOfType stack kind (some type) ∧ w.logicalId n = id ↔ n = r.target
  instance_eq : doc.instance? kind type id = some (w.fixedBody r.target)

/-- The references between the blocks of a stack are kept in its document. -/
structure Integral (w : Workspace) (stack : NodeId) (doc : Document) : Prop where
  /-- Each block has its entry, and nothing else has one. -/
  records : w.Records stack doc
  /-- Where a reference stands in a block, its token stands in the entry. -/
  part?_eq : ∀ n ∈ w.blockNodes stack, ∀ place r,
    (w.propertiesOf n).part? place = some (.atom (.reference r)) →
      (w.fixedBody n).part? place = some (.text (w.token r))
  /-- What is pointed at is a resource or data source of the stack. -/
  target_mem : ∀ m n, w.PointsAt stack m n →
    n ∈ w.nodesOf stack .resource ∨ n ∈ w.nodesOf stack .data
  /-- The token names what is pointed at, exactly if that has a type. -/
  names_iff : ∀ n ∈ w.blockNodes stack, ∀ place r,
    (w.propertiesOf n).part? place = some (.atom (.reference r)) →
      ((∃ kind type id, w.Names stack doc r kind type id) ↔
        (w.node r.target).typeTag ≠ none)
  /-- No block leads back to itself. -/
  acyclic : ∀ n, ¬ Relation.TransGen (w.PointsAt stack) n n
  /-- The blocks can be put in order, each after all that it points at. -/
  ordered : ∃ order, order.Perm (w.blockNodes stack) ∧
    ∀ m n, w.PointsAt stack m n → [n, m].Sublist order

variable {w : Workspace} {stack : NodeId} {doc : Document}

/-- A block points at a node if a reference to it stands at some place in its properties. -/
theorem pointsAt_of_part? {n : NodeId} (hn : n ∈ w.blockNodes stack) {place : List Nat}
    {r : Reference} (h : (w.propertiesOf n).part? place = some (.atom (.reference r))) :
    w.PointsAt stack n r.target := by
  have hwithin := Datum.within_iff_exists_part?.mpr ⟨place, h⟩
  exact ⟨hn, r.attr, (Heap.within_atom_datum_iff (by simp)).mp hwithin⟩

/-- Where a reference stands in the properties, its token stands in the body. -/
theorem part?_fixedBody {n : NodeId} {place : List Nat} {r : Reference}
    (h : (w.propertiesOf n).part? place = some (.atom (.reference r))) :
    (w.fixedBody n).part? place = some (.text (w.token r)) := by
  rw [fixedBody, Datum.freeze, Datum.part?_withFixed, Datum.part?_withTokens, h]
  rfl

/-- While callers hand over references to resources and data sources, blocks point at no others. -/
theorem isReferenceable_of_pointsAt (hstored : w.Stored) (hrefs : w.Referring) {m n : NodeId}
    (h : w.PointsAt stack m n) : (w.node n).kind.isReferenceable = true := by
  obtain ⟨hm, attr, hr⟩ := h
  have hlt : m < w.nodes.size := lt_size_of_kind_ne (by simpa using (List.mem_filter.mp hm).2)
  obtain ⟨c, -, hc, -, -⟩ := hstored.own m hlt
  rw [hc] at hr
  have hcell : (Value.cell c).Refers w := trivial
  exact Heap.AllParts.of_reaches hrefs hcell hr

/-- What the blocks of a stack point at is a resource or data source of the stack, if it is of such a
kind and no target is foreign. -/
theorem mem_nodesOf_of_pointsAt (hw : w.Forest) (hstack : stack < w.nodes.size)
    (hforeign : ¬ w.Has stack .foreign) {m n : NodeId} (h : w.PointsAt stack m n)
    (hkind : (w.node n).kind.isReferenceable = true) :
    n ∈ w.nodesOf stack .resource ∨ n ∈ w.nodesOf stack .data := by
  obtain ⟨hm, attr, hreach⟩ := h
  have hroot : w.root n = stack :=
    Classical.byContradiction fun hne => hforeign ⟨m, hm, ⟨n, attr⟩, hreach, hne⟩
  have habove : w.Above stack n := (hw.root_eq_iff.mp hroot).1
  have hblock {kind : BlockKind} (hk : (w.node n).kind = .block kind) : n ∈ w.nodesOf stack kind := by
    have hn : n ∈ w.blockNodes stack := (hw.mem_blockNodes_iff hstack).mpr ⟨habove, by simp [hk]⟩
    simp [nodesOf, hn, hk]
  unfold NodeKind.isReferenceable at hkind
  split at hkind
  · next hk => exact .inl (hblock hk)
  · next hk => exact .inr (hblock hk)
  · cases hkind

/-- A block with a type is what its token names. -/
theorem Records.names (hdoc : w.Records stack doc) {r : Reference} {kind : BlockKind}
    (hn : r.target ∈ w.nodesOf stack kind) (hkind : kind = .resource ∨ kind = .data)
    {type : String} (htype : (w.node r.target).typeTag = some type) :
    w.Names stack doc r kind type (w.logicalId r.target) := by
  obtain ⟨hmem, hk⟩ : r.target ∈ w.blockNodes stack ∧ (w.node r.target).kind = .block kind := by
    simpa [nodesOf] using hn
  refine ⟨hkind, ?_, fun n => ⟨?_, ?_⟩, ?_⟩
  · simp [token, token.tagText, tokenText, hk, htype]
  · rintro ⟨hin, hid⟩
    have htarget : r.target ∈ w.nodesOfType stack kind (some type) := by
      simp [nodesOfType, hn, htype]
    exact List.inj_on_of_nodup_map (hdoc.ids_nodup kind _ hkind) hin htarget hid
  · rintro rfl
    exact ⟨by simp [nodesOfType, hn, htype], rfl⟩
  · have hentry := hdoc.instance_eq r.target hmem kind hk hkind
    rwa [htype] at hentry

/-- What a token names has a type. -/
theorem Names.typeTag_eq {r : Reference} {kind : BlockKind} {type id : String}
    (h : w.Names stack doc r kind type id) : (w.node r.target).typeTag = some type := by
  have hin := ((h.node_iff r.target).mpr rfl).1
  simpa using (List.mem_filter.mp hin).2

/-- Without cycles, the blocks can be put in order, each after all that it points at. -/
theorem exists_order_of_not_has_cycle (hnodup : (w.blockNodes stack).Nodup)
    (htarget : ∀ m n, w.PointsAt stack m n → n ∈ w.blockNodes stack) (h : ¬ w.Has stack .cycle) :
    ∃ order, order.Perm (w.blockNodes stack) ∧
      ∀ m n, w.PointsAt stack m n → [n, m].Sublist order := by
  obtain ⟨sorted, hs, hin⟩ :=
    References.exists_sorted_of_cycle?_eq_none (cycle?_referenceGraph_eq_none_iff.mpr h)
  have hkeys : (w.referenceGraph stack).map (·.1) = w.blockNodes stack := by
    simp [referenceGraph, Function.comp_def]
  rw [hkeys] at hin
  -- in the sorted list all that a block points at comes later
  refine ⟨(sorted.filter (· ∈ w.blockNodes stack)).reverse, ?_, fun m n hmn => ?_⟩
  · refine (List.reverse_perm _).trans ?_
    refine (List.perm_ext_iff_of_nodup (hs.nodup.filter _) hnodup).mpr fun n => ?_
    simpa using hin n
  · have hsub := (hs.sublist_of_edge (hin m hmn.1) (edge_referenceGraph_iff.mpr hmn)).filter
      (· ∈ w.blockNodes stack)
    have hboth : [m, n].filter (· ∈ w.blockNodes stack) = [m, n] := by
      simp [hmn.1, htarget m n hmn]
    rw [hboth] at hsub
    exact hsub.reverse

/-- While callers hand over references to resources and data sources, the references between the
blocks of a stack are kept in its document. -/
theorem synthesize_integral {calls : List Call} (hc : Call.AllInScope {} calls)
    (hr : Call.AllRefer {} calls) {stack : NodeId} (hstack : stack < (run {} calls).nodes.size)
    {emit : Bool} {doc : Document}
    (h : ((run {} calls).synthesize (.atom (.entity (.node stack true))) emit).2 = .ok doc) :
    (run {} calls).Integral stack doc := by
  have hw : Reached (run {} calls) := Reached.start.run hc
  have hrefs := referring_run referring_start hc hr
  generalize run {} calls = w at hstack h hw hrefs ⊢
  have hfree := not_has_of_synthesize_eq_ok h
  have hdoc : w.Records stack doc := by
    obtain ⟨placed, hs, rfl⟩ := synthesize_eq_ok h
    exact records_of_settled hs rfl
  have htarget : ∀ m n, w.PointsAt stack m n →
      n ∈ w.nodesOf stack .resource ∨ n ∈ w.nodesOf stack .data := fun m n hmn =>
    mem_nodesOf_of_pointsAt hw.forest hstack (hfree .foreign) hmn
      (isReferenceable_of_pointsAt hw.stored hrefs hmn)
  have hblock : ∀ m n, w.PointsAt stack m n → n ∈ w.blockNodes stack := fun m n hmn =>
    (htarget m n hmn).elim List.mem_of_mem_filter List.mem_of_mem_filter
  refine ⟨hdoc, fun n _ place r => part?_fixedBody, htarget, fun n hn place r hr => ⟨?_, ?_⟩,
    fun n hn => hfree .cycle ⟨n, hn⟩,
    exists_order_of_not_has_cycle (hw.forest.nodup_blockNodes stack) hblock (hfree .cycle)⟩
  · rintro ⟨kind, type, id, hnames⟩
    simp [hnames.typeTag_eq]
  · intro htag
    obtain ⟨type, htype⟩ := Option.ne_none_iff_exists'.mp htag
    rcases htarget n r.target (pointsAt_of_part? hn hr) with ht | ht
    · exact ⟨.resource, type, _, hdoc.names ht (.inl rfl) htype⟩
    · exact ⟨.data, type, _, hdoc.names ht (.inr rfl) htype⟩

/-- The references of the network are kept. -/
theorem synthesize_integral_network :
    ∃ doc, ((run {} networkCalls).synthesize (.atom (.entity (.node 0 true))) true).2 = .ok doc ∧
      (run {} networkCalls).Integral 0 doc := by
  have hc : Call.AllInScope {} networkCalls := by decide +kernel
  have hr : Call.AllRefer {} networkCalls := by decide +kernel
  have hok : (((run {} networkCalls).synthesize (.atom (.entity (.node 0 true))) true).2).isOk =
      true := by decide +kernel
  cases h : ((run {} networkCalls).synthesize (.atom (.entity (.node 0 true))) true).2 with
  | error e =>
    rw [h] at hok
    cases hok
  | ok doc =>
    exact ⟨doc, rfl, synthesize_integral hc hr (by decide +kernel) h⟩

/-- Requests that declare a resource without a type and a subnet that points at it. -/
def typelessNetworkCalls : List Call :=
  typelessCalls ++ [.keep (.mapping [(.text "vpc", .atom (.reference ⟨1, "id"⟩))]),
    .addBlock 0 .resource (.text "subnet") (.text "a") (.cell 2)]

/-- The token of a reference to a resource without a type names nothing that the document holds. -/
theorem synthesize_typeless_network :
    Call.AllInScope {} typelessNetworkCalls ∧ Call.AllRefer {} typelessNetworkCalls ∧
      ∃ doc, ((run {} typelessNetworkCalls).synthesize (.atom (.entity (.node 0 true))) true).2 =
          .ok doc ∧
        ((doc.instance? .resource "subnet" "a").bind (·.field? "vpc")).bind (·.text?) =
          some "$\x7bNone.main.id\x7d" ∧
        doc.instance? .resource "None" "main" = none ∧
        ¬ ∃ kind type id, (run {} typelessNetworkCalls).Names 0 doc ⟨1, "id"⟩ kind type id := by
  refine ⟨by decide +kernel, by decide +kernel, ?_⟩
  have hrun : (((run {} typelessNetworkCalls).synthesize
      (.atom (.entity (.node 0 true))) true).2.toOption.map fun doc =>
        (((doc.instance? .resource "subnet" "a").bind (·.field? "vpc")).bind (·.text?),
          (doc.instance? .resource "None" "main").isNone)) =
      some (some "$\x7bNone.main.id\x7d", true) := by decide +kernel
  have htag : ((run {} typelessNetworkCalls).node 1).typeTag = none := by decide +kernel
  obtain ⟨doc, hdoc, hshown⟩ := Option.map_eq_some_iff.mp hrun
  obtain ⟨htoken, hnone⟩ := Prod.mk.inj hshown
  refine ⟨doc, toOption_eq_some.mp hdoc, htoken, Option.isNone_iff_eq_none.mp hnone, ?_⟩
  rintro ⟨kind, type, id, hnames⟩
  have hsome := hnames.typeTag_eq
  rw [htag] at hsome
  cases hsome

end Workspace

end Groundplan
