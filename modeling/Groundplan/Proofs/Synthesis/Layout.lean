import Groundplan.Proofs.Datum.Entries
import Groundplan.Proofs.Synthesis.Placement
import Groundplan.Proofs.Workspace.Forest
import Mathlib.Data.List.Induction

/-!
# The layout of a document

A document that a stack becomes holds the blocks of the stack and nothing else: section by section in
the order of the kinds, types in the order in which each came first on the walk, and below them ids
and configurations in the order of the walk. No id comes twice under one type, so each block is found
in its place.
-/

namespace Groundplan

/-- Each element of another list, in the order in which each comes first there. -/
structure FirstOccurrences {α : Type} [BEq α] (firsts all : List α) : Prop where
  mem_iff : ∀ {a : α}, a ∈ firsts ↔ a ∈ all
  sorted : firsts.Pairwise fun a b => all.idxOf a < all.idxOf b

/-- No element comes twice among first occurrences. -/
theorem FirstOccurrences.nodup {α : Type} [BEq α] {firsts all : List α}
    (h : FirstOccurrences firsts all) : firsts.Nodup :=
  h.sorted.imp fun hlt he => by rw [he] at hlt; exact Nat.lt_irrefl _ hlt

/-- What is left of a list without repetitions are the first occurrences. -/
theorem firstOccurrences_eraseDups {α : Type} [BEq α] [LawfulBEq α] (all : List α) :
    FirstOccurrences all.eraseDups all where
  mem_iff := List.mem_eraseDups
  sorted := by
    induction all using List.reverseRecOn with
    | nil => exact .nil
    | append_singleton rest a ih =>
      -- a new last element comes after all others
      have hidx {b : α} (hb : b ∈ rest) : (rest ++ [a]).idxOf b = rest.idxOf b := by
        rw [List.idxOf_append, if_pos hb]
      rw [List.eraseDups_append]
      have hrest : rest.eraseDups.Pairwise fun b c =>
          (rest ++ [a]).idxOf b < (rest ++ [a]).idxOf c := by
        refine ih.imp_of_mem fun hb hc hlt => ?_
        rwa [hidx (List.mem_eraseDups.mp hb), hidx (List.mem_eraseDups.mp hc)]
      by_cases ha : a ∈ rest
      · have hnone : [a].removeAll rest = [] := by simp [List.removeAll, ha]
        rw [hnone, List.eraseDups_nil, List.append_nil]
        exact hrest
      · have hone : [a].removeAll rest = [a] := by simp [List.removeAll, ha]
        rw [hone]
        refine List.pairwise_append.mpr ⟨hrest, by simp [List.eraseDups_cons], ?_⟩
        intro b hb c hc
        have hb := List.mem_eraseDups.mp hb
        obtain rfl : c = a := by simpa [List.eraseDups_cons] using hc
        rw [hidx hb, List.idxOf_append, if_neg ha]
        have hlt := List.idxOf_lt_length_of_mem hb
        omega

namespace Datum

/-- Only the last change of fixedness counts. -/
@[simp] theorem withFixed_withFixed (f g : Bool) (d : Datum) :
    (d.withFixed f).withFixed g = d.withFixed g := by
  induction d using Datum.induction with
  | atom a => rfl
  | loop c => rfl
  | sequence fixed items ih =>
    simp only [withFixed, withFixedItems_eq_map, List.map_map]
    congr 1
    exact List.map_congr_left ih
  | mapping fixed es ih =>
    simp only [withFixed, withFixedEntries_eq_map, List.map_map]
    congr 1
    apply List.map_congr_left
    intro e he
    obtain ⟨k, d⟩ := e
    simpa using ih (k, d) he

end Datum

namespace Workspace

/-- The nodes of a stack that are blocks of a kind, in order. -/
def nodesOf (w : Workspace) (stack : NodeId) (kind : BlockKind) : List NodeId :=
  (w.blockNodes stack).filter fun n => (w.node n).kind = .block kind

/-- The nodes of a stack that are blocks of a kind and type, in order. -/
def nodesOfType (w : Workspace) (stack : NodeId) (kind : BlockKind) (type : Option String) :
    List NodeId :=
  (w.nodesOf stack kind).filter fun n => (w.node n).typeTag = type

/-- The body of a node in a document: its properties with a token for each reference, and fixed. -/
def fixedBody (w : Workspace) (n : NodeId) : Datum :=
  ((w.propertiesOf n).withTokens w.token).freeze

/-- The bodies of nodes under their ids. -/
def byId (w : Workspace) (nodes : List NodeId) : Entries Datum :=
  nodes.map fun n => (.text (w.logicalId n), w.fixedBody n)

/-- The section that the nodes of a kind make up, given the types in order. -/
def sectionWith (w : Workspace) (stack : NodeId) (types : List (Option String)) :
    BlockKind → Datum
  | .output => .mapping true (w.byId (w.nodesOf stack .output))
  | .provider => .mapping true (types.map fun t =>
      (Key.ofText? t, .sequence true ((w.nodesOfType stack .provider t).map w.fixedBody)))
  | kind => .mapping true (types.map fun t =>
      (Key.ofText? t, .mapping true (w.byId (w.nodesOfType stack kind t))))

/-- The document holds the blocks of the stack, each in its place, and nothing else. -/
structure Records (w : Workspace) (stack : NodeId) (doc : Document) : Prop where
  /-- The properties of each block are read to the end. -/
  loopFree : ∀ n ∈ w.blockNodes stack, (w.propertiesOf n).LoopFree
  /-- The sections in order, given the types of each in the order in which they came first. -/
  blocks_eq : ∃ types : BlockKind → List (Option String),
    (∀ kind, FirstOccurrences (types kind)
      ((w.nodesOf stack kind).map fun n => (w.node n).typeTag)) ∧
    doc.blocks =
      (BlockKind.all.filter fun kind => w.nodesOf stack kind ≠ []).map
          (fun kind => (kind.key, w.sectionWith stack (types kind) kind)) ++
        if w.nodesOf stack .resource = [] then [(BlockKind.resource.key, .mapping true [])] else []
  /-- No id comes twice under a type. -/
  ids_nodup : ∀ kind type, kind = .resource ∨ kind = .data →
    ((w.nodesOfType stack kind type).map w.logicalId).Nodup
  /-- No id of an output comes twice. -/
  outputs_nodup : ((w.nodesOf stack .output).map w.logicalId).Nodup
  /-- A resource or data source stands under its type and id. -/
  instance_eq : ∀ n ∈ w.blockNodes stack, ∀ kind, (w.node n).kind = .block kind →
    kind = .resource ∨ kind = .data →
      ((doc.entriesOf kind).get? (Key.ofText? (w.node n).typeTag)).bind
        (·.field? (w.logicalId n)) = some (w.fixedBody n)
  /-- An output stands under its id. -/
  output_eq : ∀ n ∈ w.blockNodes stack, (w.node n).kind = .block .output →
    (doc.entriesOf .output).get? (.text (w.logicalId n)) = some (w.fixedBody n)
  /-- A provider stands among the configurations of its type. -/
  provider_eq : ∀ n ∈ w.blockNodes stack, (w.node n).kind = .block .provider →
    (doc.entriesOf .provider).get? (Key.ofText? (w.node n).typeTag) =
      some (.sequence true
        ((w.nodesOfType stack .provider (w.node n).typeTag).map w.fixedBody))

variable {w w' : Workspace} {stack : NodeId}

/-- A body has the tokens of what it is made from and is fixed like it. -/
theorem freeze_bodyOf (d : Datum) : (w.bodyOf d).freeze = (d.withTokens w.token).freeze :=
  Datum.withFixed_withFixed ..

section Settled

variable {placed : List Placed} (hs : w.Settled stack (w.blockNodes stack) placed)
include hs

private theorem Settled.map_filter {α : Type} {P : Placed → Bool} {Q : NodeId → Bool}
    {g : Placed → α} {g' : NodeId → α} (hP : ∀ p, w.Places p → P p = Q p.node)
    (hg : ∀ p, w.Places p → g p = g' p.node) :
    (placed.filter P).map g = ((w.blockNodes stack).filter Q).map g' := by
  have hfilter : placed.filter P = placed.filter (Q ∘ Placed.node) :=
    List.filter_congr fun p hp => hP p (hs.places p hp)
  rw [← hs.nodes_eq, List.filter_map, List.map_map, hfilter]
  apply List.map_congr_left
  intro p hp
  exact hg p (hs.places p (List.mem_of_mem_filter hp))

private theorem Settled.map_kind {α : Type} {g : Placed → α} {g' : NodeId → α}
    (kind : BlockKind) (hg : ∀ p, w.Places p → g p = g' p.node) :
    (placed.filter fun p => p.kind == kind).map g = (w.nodesOf stack kind).map g' := by
  refine hs.map_filter (fun p hp => ?_) hg
  rw [hp.kind_eq, Bool.eq_iff_iff]
  simp

private theorem Settled.map_type {α : Type} {g : Placed → α} {g' : NodeId → α}
    (kind : BlockKind) (type : Option String) (hg : ∀ p, w.Places p → g p = g' p.node) :
    ((placed.filter fun p => p.kind == kind).filter fun p => p.typeTag == type).map g =
      (w.nodesOfType stack kind type).map g' := by
  rw [List.filter_filter, nodesOfType, nodesOf, List.filter_filter]
  refine hs.map_filter (fun p hp => ?_) hg
  rw [hp.kind_eq, hp.typeTag_eq, Bool.eq_iff_iff]
  simp

private theorem Settled.freeze_sectionOf (kind : BlockKind) :
    (Placed.sectionOf kind placed).freeze =
      w.sectionWith stack ((w.nodesOf stack kind).map fun n => (w.node n).typeTag).eraseDups
        kind := by
  have hbody : ∀ p, w.Places p → p.body.freeze = w.fixedBody p.node := fun p hp => by
    rw [hp.body_eq, freeze_bodyOf, fixedBody]
  have hentry : ∀ p, w.Places p → ((Key.text p.id, p.body.freeze) : Key × Datum) =
      (.text (w.logicalId p.node), w.fixedBody p.node) := fun p hp => by
    rw [hp.id_eq, hbody p hp]
  have htypes : Placed.types (placed.filter fun p => p.kind == kind) =
      ((w.nodesOf stack kind).map fun n => (w.node n).typeTag).eraseDups := by
    have hmap : (placed.filter fun p => p.kind == kind).map (·.typeTag) =
        (w.nodesOf stack kind).map fun n => (w.node n).typeTag :=
      hs.map_kind kind fun p hp => hp.typeTag_eq
    rw [Placed.types, hmap]
  cases kind with
  | output =>
    simp only [Placed.sectionOf, sectionWith, byId, Datum.freeze, Datum.withFixed,
      Datum.withFixedEntries_eq_map, List.map_map]
    rw [← hs.map_kind .output hentry]
    rfl
  | provider =>
    simp only [Placed.sectionOf, sectionWith, Datum.freeze, Datum.withFixed,
      Datum.withFixedEntries_eq_map, List.map_map, htypes]
    congr 1
    apply List.map_congr_left
    intro t _
    simp only [Function.comp_apply, Datum.withFixed, Datum.withFixedItems_eq_map, List.map_map]
    rw [← hs.map_type .provider t hbody]
    rfl
  | data =>
    simp only [Placed.sectionOf, sectionWith, byId, Datum.freeze, Datum.withFixed,
      Datum.withFixedEntries_eq_map, List.map_map, htypes]
    congr 1
    apply List.map_congr_left
    intro t _
    simp only [Function.comp_apply, Datum.withFixed, Datum.withFixedEntries_eq_map, List.map_map]
    rw [← hs.map_type .data t hentry]
    rfl
  | resource =>
    simp only [Placed.sectionOf, sectionWith, byId, Datum.freeze, Datum.withFixed,
      Datum.withFixedEntries_eq_map, List.map_map, htypes]
    congr 1
    apply List.map_congr_left
    intro t _
    simp only [Function.comp_apply, Datum.withFixed, Datum.withFixedEntries_eq_map, List.map_map]
    rw [← hs.map_type .resource t hentry]
    rfl

private theorem Settled.any_kind (kind : BlockKind) :
    placed.any (fun p => p.kind == kind) = decide (w.nodesOf stack kind ≠ []) := by
  have hmap : (placed.filter fun p => p.kind == kind).map (·.node) =
      (w.nodesOf stack kind).map id := hs.map_kind kind fun _ _ => rfl
  rw [List.map_id] at hmap
  rw [← hmap, Bool.eq_iff_iff]
  simp [List.filter_eq_nil_iff]

/-- The sections of blocks in their slots, fixed. -/
private theorem Settled.mapValues_sections :
    (Placed.sections placed).mapValues Datum.freeze =
      (BlockKind.all.filter fun kind => w.nodesOf stack kind ≠ []).map
          (fun kind => (kind.key, w.sectionWith stack
            ((w.nodesOf stack kind).map fun n => (w.node n).typeTag).eraseDups kind)) ++
        if w.nodesOf stack .resource = [] then [(BlockKind.resource.key, .mapping true [])]
        else [] := by
  have hfilled : Entries.mapValues Datum.freeze
      ((BlockKind.all.filter fun kind => placed.any fun p => p.kind == kind).map
        fun kind => (kind.key, Placed.sectionOf kind placed)) =
      (BlockKind.all.filter fun kind => w.nodesOf stack kind ≠ []).map
          (fun kind => (kind.key, w.sectionWith stack
            ((w.nodesOf stack kind).map fun n => (w.node n).typeTag).eraseDups kind)) := by
    simp only [Entries.mapValues, List.map_map, hs.any_kind]
    apply List.map_congr_left
    intro kind _
    simp only [Function.comp_apply, hs.freeze_sectionOf]
  rw [Placed.sections, hs.any_kind]
  by_cases hr : w.nodesOf stack .resource = []
  · simp only [hr, ne_eq, not_true_eq_false, decide_false, Bool.false_eq_true, ↓reduceIte]
    rw [Entries.mapValues, List.map_append]
    exact congrArg (· ++ _) hfilled
  · simp only [hr, ne_eq, not_false_eq_true, decide_true, ↓reduceIte, List.append_nil]
    exact hfilled

/-- No node claims the slot of one before it. -/
private theorem Settled.pairwise_not_sameSlot :
    (w.blockNodes stack).Pairwise fun m n => ¬ w.SameSlot n m :=
  List.pairwise_iff_forall_sublist.mpr fun hmn => (hs.not_claimed hmn).1

private theorem Settled.ids_nodup {kind : BlockKind} (type : Option String)
    (hkind : kind = .resource ∨ kind = .data) :
    ((w.nodesOfType stack kind type).map w.logicalId).Nodup := by
  rw [List.nodup_iff_pairwise_ne, List.pairwise_map]
  refine ((hs.pairwise_not_sameSlot.filter _).filter _).imp_of_mem fun hm hn hslot he => hslot ?_
  simp only [nodesOfType, nodesOf, List.mem_filter, decide_eq_true_eq] at hm hn
  obtain ⟨⟨-, hmk⟩, hmt⟩ := hm
  obtain ⟨⟨-, hnk⟩, hnt⟩ := hn
  refine ⟨he.symm, .inr ⟨by rw [hmt, hnt], ?_⟩⟩
  rcases hkind with rfl | rfl
  · exact .inl ⟨hnk, hmk⟩
  · exact .inr ⟨hnk, hmk⟩

private theorem Settled.outputs_nodup : ((w.nodesOf stack .output).map w.logicalId).Nodup := by
  rw [List.nodup_iff_pairwise_ne, List.pairwise_map]
  refine (hs.pairwise_not_sameSlot.filter _).imp_of_mem fun hm hn hslot he => hslot ?_
  simp only [nodesOf, List.mem_filter, decide_eq_true_eq] at hm hn
  exact ⟨he.symm, .inl ⟨hn.2, hm.2⟩⟩

end Settled

/-- The document of a stack has the blocks of the stack in their slots. -/
theorem documentOf_eq_ok {emit : Bool} {doc : Document}
    (h : w.documentOf stack emit = .ok doc) :
    ∃ placed, w.Settled stack (w.blockNodes stack) placed ∧
      doc = .of (w.node stack).id (Placed.sections placed)
        (if emit then metadata (w.node stack).id else []) := by
  rw [documentOf_eq] at h
  obtain ⟨placed, hplaced, h⟩ := bind_eq_ok.mp h
  refine ⟨placed, placeAll_eq_ok hplaced, ?_⟩
  split at h
  · cases h
  · cases h
    rfl

private theorem SameTrees.settled (h : SameTrees w w') {nodes : List NodeId}
    {placed : List Placed} (hs : w'.Settled stack nodes placed) : w.Settled stack nodes placed := by
  have hbody : w'.bodyOf = w.bodyOf := by
    funext d
    rw [bodyOf, bodyOf, h.token_eq]
  refine ⟨hs.nodes_eq, fun p hp => ?_, fun n hn => ?_, hs.free⟩
  · have hplaces := hs.places p hp
    refine ⟨?_, ?_, ?_, ?_⟩
    · rw [← h.kind_eq, hplaces.kind_eq]
    · rw [← h.typeTag_eq, hplaces.typeTag_eq]
    · rw [← h.logicalId_eq, hplaces.id_eq]
    · rw [← h.propertiesOf_eq, ← hbody, hplaces.body_eq]
  · have hr := hs.resolvable n hn
    rw [h.propertiesOf_eq] at hr
    exact ⟨hr.loopFree, hr.supported, fun hw => h.root_eq _ ▸ hr.root_eq hw⟩

/-- What synthesis gives for a stack has the blocks of the stack in their slots. -/
theorem synthesize_eq_ok {emit : Bool} {doc : Document}
    (h : (w.synthesize (.atom (.entity (.node stack true))) emit).2 = .ok doc) :
    ∃ placed, w.Settled stack (w.blockNodes stack) placed ∧
      doc = .of (w.node stack).id (Placed.sections placed)
        (if emit then metadata (w.node stack).id else []) := by
  have hsame := sameTrees_close w stack
  obtain ⟨placed, hs, hdoc⟩ := documentOf_eq_ok (mapError_eq_ok.mp h)
  rw [hsame.id_eq] at hdoc
  rw [hsame.blockNodes_eq] at hs
  exact ⟨placed, hsame.settled hs, hdoc⟩

end Workspace

namespace Workspace

variable {w : Workspace} {stack : NodeId} {doc : Document}

section Sections

variable {types : BlockKind → List (Option String)}
  (htypes : ∀ kind, FirstOccurrences (types kind)
    ((w.nodesOf stack kind).map fun n => (w.node n).typeTag))
  (hblocks : doc.blocks =
    (BlockKind.all.filter fun kind => w.nodesOf stack kind ≠ []).map
        (fun kind => (kind.key, w.sectionWith stack (types kind) kind)) ++
      if w.nodesOf stack .resource = [] then [(BlockKind.resource.key, .mapping true [])] else [])

include htypes in
/-- A kind without blocks makes up a section without entries. -/
private theorem sectionWith_eq_nil {kind : BlockKind} (hn : w.nodesOf stack kind = []) :
    w.sectionWith stack (types kind) kind = .mapping true [] := by
  have hempty : types kind = [] := by
    apply List.eq_nil_iff_forall_not_mem.mpr
    intro t ht
    have hmem := (htypes kind).mem_iff.mp ht
    simp [hn] at hmem
  rw [hempty]
  cases kind <;> simp [sectionWith, byId, hn]

include htypes hblocks

/-- A section is there if it has blocks or is that of the resources, and its blocks make it up. -/
theorem section?_eq (kind : BlockKind) :
    doc.section? kind =
      if w.nodesOf stack kind = [] ∧ kind ≠ .resource then none
      else some (w.sectionWith stack (types kind) kind) := by
  rw [Document.section?, hblocks, Entries.get?_append]
  by_cases hn : w.nodesOf stack kind = []
  · rw [sectionWith_eq_nil htypes hn, Entries.get?_map_eq_none]
    · by_cases hr : w.nodesOf stack .resource = []
      · cases kind <;> simp [hn, hr, Entries.get?, BlockKind.name]
      · have hne : kind ≠ .resource := by
          rintro rfl
          exact hr hn
        simp [hn, hr, hne, Entries.get?]
    · intro k hk
      simp only [ne_eq, decide_not, List.mem_filter, Bool.not_eq_eq_eq_not, Bool.not_true,
        decide_eq_false_iff_not] at hk
      rw [BlockKind.same_key, beq_eq_false_iff_ne]
      rintro rfl
      exact hk.2 hn
  · rw [Entries.get?_map_of_mem]
    · simp [hn]
    · simp
    · intro k _ hk
      rw [BlockKind.same_key, beq_iff_eq] at hk
      rw [hk]
    · simp [BlockKind.mem_all, hn]

/-- The entries of the section of a kind are those that its blocks make up. -/
theorem entriesOf_eq (kind : BlockKind) :
    doc.entriesOf kind = (w.sectionWith stack (types kind) kind).entries := by
  rw [Document.entriesOf, section?_eq htypes hblocks]
  split
  · next hn =>
    rw [sectionWith_eq_nil htypes hn.1]
    rfl
  · rfl

end Sections

private theorem mem_nodesOfType {n : NodeId} {kind : BlockKind} (hn : n ∈ w.blockNodes stack)
    (hk : (w.node n).kind = .block kind) :
    n ∈ w.nodesOfType stack kind (w.node n).typeTag := by
  simp [nodesOfType, nodesOf, hn, hk]

private theorem mem_types {types : List (Option String)} {n : NodeId} {kind : BlockKind}
    (htypes : FirstOccurrences types
      ((w.nodesOf stack kind).map fun n => (w.node n).typeTag))
    (hn : n ∈ w.blockNodes stack) (hk : (w.node n).kind = .block kind) :
    (w.node n).typeTag ∈ types :=
  htypes.mem_iff.mpr (List.mem_map_of_mem (by simp [nodesOf, hn, hk]))

/-- Where no id comes twice, a body is found under its id. -/
theorem get?_byId {nodes : List NodeId} (hnodup : (nodes.map w.logicalId).Nodup)
    {n : NodeId} (hn : n ∈ nodes) :
    (w.byId nodes).get? (.text (w.logicalId n)) = some (w.fixedBody n) := by
  have hkey : ∀ m ∈ nodes, (Key.text (w.logicalId n)).same (.text (w.logicalId m)) = true →
      w.fixedBody m = w.fixedBody n := by
    intro m hm hsame
    have hid : w.logicalId n = w.logicalId m := by simpa using hsame
    rw [List.inj_on_of_nodup_map hnodup hn hm hid]
  exact Entries.get?_map_of_mem (by simp) hkey hn

/-- Blocks in their slots make up sections in which each is found. -/
theorem records_of_settled {placed : List Placed}
    (hs : w.Settled stack (w.blockNodes stack) placed)
    (hdoc : doc.blocks = (Placed.sections placed).mapValues Datum.freeze) :
    w.Records stack doc := by
  have htypes : ∀ kind, FirstOccurrences
      ((w.nodesOf stack kind).map fun n => (w.node n).typeTag).eraseDups
      ((w.nodesOf stack kind).map fun n => (w.node n).typeTag) :=
    fun kind => firstOccurrences_eraseDups _
  have hblocks := hdoc.trans hs.mapValues_sections
  have hentries := entriesOf_eq htypes hblocks
  refine ⟨fun n hn => (hs.resolvable n hn).loopFree, ⟨_, htypes, hblocks⟩, fun kind type =>
    hs.ids_nodup type, hs.outputs_nodup, ?_, ?_, ?_⟩
  · intro n hn kind hk hkind
    have hsection : (doc.entriesOf kind).get? (Key.ofText? (w.node n).typeTag) =
        some (.mapping true (w.byId (w.nodesOfType stack kind (w.node n).typeTag))) := by
      rw [hentries kind]
      have hmem := mem_types (htypes kind) hn hk
      rcases hkind with rfl | rfl <;>
        exact (Entries.get?_map_ofText? _ _ _).trans (if_pos hmem)
    rw [hsection]
    exact get?_byId (hs.ids_nodup _ hkind) (mem_nodesOfType hn hk)
  · intro n hn hk
    rw [hentries .output]
    exact get?_byId hs.outputs_nodup (by simp [nodesOf, hn, hk])
  · intro n hn hk
    rw [hentries .provider]
    exact (Entries.get?_map_ofText? _ _ _).trans (if_pos (mem_types (htypes _) hn hk))

/-- A document that a stack becomes holds the blocks below the stack, each once and in its place, and
nothing else. -/
theorem synthesize_records (hw : Reached w) {stack : NodeId} (hstack : stack < w.nodes.size)
    {emit : Bool} {doc : Document}
    (h : (w.synthesize (.atom (.entity (.node stack true))) emit).2 = .ok doc) :
    (w.blockNodes stack).Nodup ∧
      (∀ n, n ∈ w.blockNodes stack ↔ w.Above stack n ∧ (w.node n).kind ≠ .group) ∧
      w.Records stack doc := by
  refine ⟨hw.forest.nodup_blockNodes stack, fun n => hw.forest.mem_blockNodes_iff hstack, ?_⟩
  obtain ⟨placed, hs, rfl⟩ := synthesize_eq_ok h
  exact records_of_settled hs rfl

/-- Requests that declare a network in a group and a subnet that points at it. -/
def networkCalls : List Call :=
  [.createApp "", .createStack 0 (.text "stack"), .addConstruct 0 (.text "net"),
    .keep (.mapping [(.text "cidr", .text "10.0.0.0/16")]),
    .addBlock 1 .resource (.text "vpc") (.text "main") (.cell 2),
    .keep (.tuple [.atom (.reference ⟨2, "id"⟩)]), .keep (.mapping [(.text "vpcs", .cell 4)]),
    .addBlock 0 .resource (.text "subnet") (.text "a") (.cell 5)]

/-- The network and its subnet are recorded. -/
theorem synthesize_records_network :
    ∃ doc, (((run {} networkCalls).synthesize (.atom (.entity (.node 0 true))) true).2 = .ok doc) ∧
      (run {} networkCalls).Records 0 doc := by
  have hw : Reached (run {} networkCalls) := Reached.start.run (by decide +kernel)
  have hok : (((run {} networkCalls).synthesize (.atom (.entity (.node 0 true))) true).2).isOk =
      true := by decide +kernel
  cases h : ((run {} networkCalls).synthesize (.atom (.entity (.node 0 true))) true).2 with
  | error e =>
    rw [h] at hok
    cases hok
  | ok doc => exact ⟨doc, rfl, (synthesize_records hw (by decide +kernel) h).2.2⟩

end Workspace

end Groundplan
