import Groundplan.Proofs.Synthesis.Layout
import Groundplan.Proofs.Synthesis.References
import Groundplan.Proofs.Synthesis.Rewording
import Groundplan.Proofs.Workspace.Frame
import Groundplan.Proofs.Workspace.Lineage
import Groundplan.Proofs.Workspace.Locked

/-!
# Synthesis repeated

What a stack becomes depends on its own tree alone: on its blocks and what they hold, and on the ids
on the way to what they point at. Requests below other stacks reach none of that, whatever
containers the nodes share, and once the stack was synthesised, requests below it are refused. So it
becomes the same document again, or is refused again for the same cause. Only how a refusal shows
keys that name apps, nodes or references may have changed: a naming shows all that these have
become.
-/

namespace Groundplan

namespace Call

/-- The request is not about the tree of a stack, or the stack was synthesised before. -/
def Elsewhere (w : Workspace) (s : NodeId) (call : Call) : Prop :=
  ∀ n ∈ call.target?, w.root n ≠ s ∨ w.state? s = some .synthesized

instance (w : Workspace) (s : NodeId) (call : Call) : Decidable (call.Elsewhere w s) :=
  inferInstanceAs (Decidable (∀ n ∈ call.target?, _ ∨ _))

/-- Each request of a list is not about the tree of a stack, unless that is synthesised when its turn
comes. -/
def AllElsewhere (w : Workspace) (s : NodeId) : List Call → Prop
  | [] => True
  | call :: calls => call.Elsewhere w s ∧ AllElsewhere (w.perform call).workspace s calls

instance decidableAllElsewhere (w : Workspace) (s : NodeId) :
    (calls : List Call) → Decidable (AllElsewhere w s calls)
  | [] => inferInstanceAs (Decidable True)
  | call :: calls =>
      have := decidableAllElsewhere (w.perform call).workspace s calls
      inferInstanceAs (Decidable (call.Elsewhere w s ∧ AllElsewhere (w.perform call).workspace s calls))

/-- If the request writes the mapping of a node that is there and of another tree, then no node of the
stack draws on that mapping. -/
def Spares (w : Workspace) (s : NodeId) (call : Call) : Prop :=
  ∀ m ∈ call.changed?, m < w.nodes.size → w.root m ≠ s →
    ∀ n ∈ w.walk s, ¬ w.heap.DrawsOn (w.node n).properties (w.propertyCell m)

/-- The node whose properties a request sets is what it is about. -/
theorem mem_target?_of_mem_changed? {call : Call} {n : NodeId} (h : n ∈ call.changed?) :
    n ∈ call.target? := by
  cases call with
  | setProperty | addOverride => exact h
  | _ => cases h

end Call

namespace Workspace

variable {w w' w'' : Workspace}

section Undisturbed

/-- The tree below a stack has the same nodes with the same properties in both, and all nodes that are
there are what they were declared as. -/
structure Undisturbed (w w' : Workspace) (s : NodeId) : Prop where
  grows : Grows w w'
  walk_eq : w'.walk s = w.walk s
  propertiesOf_eq : ∀ n ∈ w.walk s, w'.propertiesOf n = w.propertiesOf n

theorem Undisturbed.refl (w : Workspace) (s : NodeId) : Undisturbed w w s :=
  ⟨.refl w, rfl, fun _ _ => rfl⟩

theorem Undisturbed.trans {s : NodeId} (h : Undisturbed w w' s) (h' : Undisturbed w' w'' s) :
    Undisturbed w w'' s where
  grows := h.grows.trans h'.grows
  walk_eq := h'.walk_eq.trans h.walk_eq
  propertiesOf_eq n hn := (h'.propertiesOf_eq n (by rwa [h.walk_eq])).trans (h.propertiesOf_eq n hn)

/-- Closing the stack in both does not disturb it. -/
theorem Undisturbed.close {s : NodeId} (h : Undisturbed w w' s) :
    Undisturbed (w.close s) (w'.close s) s := by
  have hsame := sameTrees_close w s
  have hsame' := sameTrees_close w' s
  refine ⟨⟨?_, fun n hn => ?_⟩, ?_, fun n hn => ?_⟩
  · rw [hsame.size_eq, hsame'.size_eq]
    exact h.grows.size_le
  · rw [core_close, core_close]
    rw [hsame.size_eq] at hn
    exact h.grows.core_eq n hn
  · rw [hsame.walk_eq, hsame'.walk_eq, h.walk_eq]
  · rw [hsame.walk_eq] at hn
    rw [hsame.propertiesOf_eq, hsame'.propertiesOf_eq, h.propertiesOf_eq n hn]

/-- Only what a request is about gets a child. -/
private theorem children_perform {call : Call} (hc : call.InScope w) {n : NodeId}
    (hn : n < w.nodes.size) (hne : n ∉ call.target?) :
    ((w.perform call).workspace.node n).children = (w.node n).children := by
  have heffect := effect_perform w call
  generalize (w.perform call).workspace = w' at heffect
  have hchild {parent : NodeId} (hp : parent < w.nodes.size) (hnp : n ≠ parent) (m : Node)
      (es : Entries Value) : ((w.withChild parent m es).node n).children = (w.node n).children := by
    rw [children_withChild hp, if_neg (Nat.ne_of_lt hn), if_neg hnp]
  cases heffect with
  | closing => exact (sameTrees_foldl_close _ w).children_eq n
  | createApp => rfl
  | createStack => rw [node_withStack, if_neg (Nat.ne_of_lt hn)]
  | addConstruct | addBlock | addOutput => exact hchild hc.1 (fun he => hne (he ▸ rfl)) _ _
  | setProperty | addOverride => exact (sameTrees_markBuilding ..).children_eq n
  | keep | push | put => rfl

variable {s : NodeId}

/-- A request that is made elsewhere is refused or is not about the tree. -/
private theorem refused_or_elsewhere (hw : Reached w) (hs : (w.node s).isStack = true) {call : Call}
    (helse : call.Elsewhere w s) :
    (w.perform call).workspace = w ∨ ∀ n ∈ call.target?, w.root n ≠ s := by
  by_cases haimed : ∃ n ∈ call.target?, w.root n = s
  · -- the stack is closed, so the request is refused
    obtain ⟨n, hn, hroot⟩ := haimed
    have hclosed : w.state? n = some .synthesized := by
      have hstate := (helse n hn).resolve_left fun hne => hne hroot
      rwa [state?, hw.root_eq_of_isStack hs, ← hroot] at hstate
    have hroom : w.limits.checking = none := by rw [hw.limits_eq]
    obtain ⟨fault, hrefused, -⟩ := perform_of_synthesized hclosed hroom hn
    rw [hrefused]
    exact .inl rfl
  · exact .inr fun n hn hroot => haimed ⟨n, hn, hroot⟩

section Elsewhere

variable {call : Call} (hw : Reached w) (hs : (w.node s).isStack = true) (hc : call.InScope w)
  (hwritten : call.written? = none) (helse : call.Elsewhere w s) (hspares : call.Spares w s)
include hw hs hc hwritten helse hspares

/-- A request that is made elsewhere and writes nothing that the tree draws on does not disturb it. -/
private theorem undisturbed_perform : Undisturbed w (w.perform call).workspace s := by
  rcases refused_or_elsewhere hw hs helse with hrefused | haway
  · rw [hrefused]
    exact .refl w s
  · have hgrows : Grows w (w.perform call).workspace := grows_perform hc
    have hwalk (n : NodeId) : n ∈ w.walk s ↔ n < w.nodes.size ∧ w.root n = s :=
      hw.trees.mem_walk_iff hs
    refine ⟨hgrows, ?_, fun n hn => ?_⟩
    · apply hw.forest.walk_congr hgrows.size_le
      intro n hn
      have hn := (hw.forest.mem_walk_iff (lt_size_of_isStack hs)).mpr hn
      obtain ⟨hlt, hroot⟩ := (hwalk n).mp hn
      exact children_perform hc hlt fun ht => haway n ht hroot
    · apply (framed_perform hw hc hwritten).propertiesOf_eq n ((hwalk n).mp hn).1
      intro m hm
      exact hspares m hm (hc.lt_of_mem_changed? hm) (haway m (Call.mem_target?_of_mem_changed? hm)) n hn

/-- What the tree does not draw on before the request it does not draw on after it. -/
private theorem spares_perform {call' : Call} (hspares' : call'.Spares w s) :
    call'.Spares (w.perform call).workspace s := by
  have hundisturbed := undisturbed_perform hw hs hc hwritten helse hspares
  rcases refused_or_elsewhere hw hs helse with hrefused | haway
  · rwa [hrefused]
  · intro m hm hlt hroot n hn hd
    rw [hundisturbed.walk_eq] at hn
    have hnlt := ((hw.trees.mem_walk_iff hs).mp hn).1
    rw [hundisturbed.grows.properties_eq hnlt] at hd
    have hbelow : (w.node n).properties.Below w.heap.cells.size := by
      rw [hw.stored.properties_eq hnlt]
      exact hw.stored.lt_size hnlt (hw.stored.properties_eq hnlt)
    have hd := drawsOn_of_perform hw.stored hwritten hbelow (fun k hk => hspares k hk
      (hc.lt_of_mem_changed? hk) (haway k (Call.mem_target?_of_mem_changed? hk)) n hn) hd
    by_cases hold : m < w.nodes.size
    · have hcell : (w.perform call).workspace.propertyCell m = w.propertyCell m := by
        have hprops := hundisturbed.grows.properties_eq hold
        rw [hw.stored.properties_eq hold] at hprops
        rw [propertyCell, hprops]
      rw [hcell] at hd
      rw [hw.forest.root_eq_of_grows hundisturbed.grows (hw.step call hc).forest hold] at hroot
      exact hspares' m hm hold hroot n hn hd
    · -- the mapping of a new node is new
      have hnew := (growth_perform hc).properties_eq_of_new (Nat.le_of_not_lt hold) hlt
      rw [propertyCell, hnew] at hd
      exact Nat.lt_irrefl _ (hd.lt_size hw.stored.tidy.closed hbelow)

end Elsewhere

/-- Requests that are made elsewhere and write nothing that the tree draws on do not disturb it. -/
theorem undisturbed_run (hw : Reached w) (hs : (w.node s).isStack = true) {calls : List Call}
    (hc : Call.AllInScope w calls) (hwritten : ∀ call ∈ calls, call.written? = none)
    (helse : Call.AllElsewhere w s calls) (hspares : ∀ call ∈ calls, call.Spares w s) :
    Undisturbed w (w.run calls) s := by
  induction calls generalizing w with
  | nil => exact .refl w s
  | cons call calls ih =>
    obtain ⟨hcall, hcalls⟩ := List.forall_mem_cons.mp hwritten
    obtain ⟨hspare, hspares⟩ := List.forall_mem_cons.mp hspares
    have hstep := undisturbed_perform hw hs hc.1 hcall helse.1 hspare
    have hs' : ((w.perform call).workspace.node s).isStack = true := by
      rwa [hstep.grows.isStack_eq (lt_size_of_isStack hs)]
    exact hstep.trans (ih (.step hw call hc.1) hs' hc.2 hcalls helse.2 fun call' hmem =>
      spares_perform hw hs hc.1 hcall helse.1 hspare (hspares call' hmem))

end Undisturbed

section Alike

variable {R S : String → String → Prop} {s : NodeId}

/-- Relations of paths and of shown aliases that hold of the blocks of a stack in both. -/
structure Relates (R S : String → String → Prop) (w w' : Workspace) (s : NodeId) : Prop where
  refl : ∀ p, R p p
  item : ∀ p q index, R p q → R (itemPath p index) (itemPath q index)
  key : ∀ n ∈ w.blockNodes s, (w.propertiesOf n).AllKeys fun ks => ∀ k ∈ ks, ∀ p q, R p q →
    R (keyPath p (k.plain w.naming)) (keyPath q (k.plain w'.naming))
  shown : ∀ n ∈ w.blockNodes s, Resolvable w s (w.propertiesOf n) →
    S ((w.aliasOf n).display w.naming) ((w.aliasOf n).display w'.naming)

/-- What the properties of a node point at is there. -/
private theorem Reached.target_lt (hw : Reached w) {n : NodeId} (hn : n < w.nodes.size)
    {r : Reference} (hr : Datum.Within (.atom (.reference r)) (w.propertiesOf n)) :
    r.target < w.nodes.size := by
  rw [propertiesOf, hw.stored.properties_eq hn] at hr
  rcases Heap.within_read hr with ⟨c, he⟩ | ⟨a, he, hreach⟩ | ⟨c, f, he, -⟩
  · cases he
  · cases he
    have hown : (Value.cell (w.propertyCell n)).InScope w :=
      hw.stored.lt_size hn (hw.stored.properties_eq hn)
    exact hw.inScope_of_reaches hown hreach
  · unfold Heap.layer at he
    split at he <;> cases he

variable (hw : Reached w) (hw' : Reached w') (h : Undisturbed w w' s)
  (hs : (w.node s).isStack = true)
include hw h hs

private theorem blockNodes_eq : w'.blockNodes s = w.blockNodes s := by
  unfold blockNodes
  rw [h.walk_eq]
  apply List.filter_congr
  intro n hn
  rw [h.grows.kind_eq ((hw.trees.mem_walk_iff hs).mp hn).1]

private theorem referenceGraph_eq : w'.referenceGraph s = w.referenceGraph s := by
  unfold referenceGraph
  rw [blockNodes_eq hw h hs]
  apply List.map_congr_left
  intro n hn
  rw [h.propertiesOf_eq n (List.mem_of_mem_filter hn)]

include hw'

/-- A reference is rendered to the same token, or refused for the same cause. -/
private theorem renderIn_alike {r : Reference} (hr : r.target < w.nodes.size) {p q : String}
    (hpq : R p q) :
    AlikeBy (SynthesisFault.Alike R S) (w.renderIn s p r) (w'.renderIn s q r) := by
  unfold renderIn
  rw [hw.forest.root_eq_of_grows h.grows hw'.forest hr,
    token_eq_of_grows hw.forest hw'.forest h.grows hr,
    path_eq_of_grows hw.forest hw'.forest h.grows hr, h.grows.id_eq (lt_size_of_isStack hs)]
  split
  · exact .ok _
  · exact .error (.unresolved _ _ hpq)

variable (hR : Relates R S w w' s)
include hR

omit hs in
/-- A block whose slot is taken finds that in both. -/
private theorem takenFault_alike {n : NodeId} (hn : n ∈ w.blockNodes s)
    (hr : Resolvable w s (w.propertiesOf n)) {p : Placed} (hnode : p.node = n)
    (hbody : p.body = w.bodyOf (w.propertiesOf n)) :
    SynthesisFault.Alike R S (w.takenFault p) (w'.takenFault p) := by
  have hpath := path_eq_of_grows hw.forest hw'.forest h.grows (lt_size_of_mem_blockNodes hn)
  have halias : p.providerAlias = w.aliasOf n := by rw [Placed.providerAlias, hbody, aliasOf]
  unfold takenFault aliasFault
  rw [hnode, hpath, halias, Datum.shown, Datum.shown, Naming.shown_of_digits_eq_none hw.digits_eq_none,
    Naming.shown_of_digits_eq_none hw'.digits_eq_none]
  split
  · exact .aliasTaken _ _ (hR.shown n hn hr)
  · exact .refl _

/-- A block is resolved alike, or not for the same cause. -/
private theorem resolveBlock_alike {n : NodeId} (hn : n ∈ w.blockNodes s) :
    AlikeBy (SynthesisFault.Alike R S) (w.resolveBlock s n) (w'.resolveBlock s n) := by
  have hlt := lt_size_of_mem_blockNodes hn
  have hbody : AlikeBy (SynthesisFault.Alike R S)
      (resolve w.naming none (w.renderIn s) (w.path n) (w.propertiesOf n))
      (resolve w'.naming none (w'.renderIn s) (w.path n) (w.propertiesOf n)) :=
    resolve_alike hw.digits_eq_none hw'.digits_eq_none hR.item (hR.key n hn)
      (fun r hr p q hpq => renderIn_alike hw hw' h hs (hw.target_lt hlt hr) hpq) (hR.refl _)
  simp only [resolveBlock]
  rw [hw.limits_eq, hw'.limits_eq, h.grows.kind_eq hlt, h.grows.typeTag_eq hlt,
    h.propertiesOf_eq n (List.mem_of_mem_filter hn), path_eq_of_grows hw.forest hw'.forest h.grows hlt,
    logicalId_eq_of_grows hw.forest hw'.forest h.grows hlt]
  refine hbody.bind fun body _ => ?_
  split
  · exact .ok _
  · exact .error (.refl _)

/-- A block takes its slot, or finds none for the same cause. -/
private theorem placeBlock_alike (before : List Placed) {n : NodeId} (hn : n ∈ w.blockNodes s) :
    AlikeBy (SynthesisFault.Alike R S) (w.placeBlock s before n) (w'.placeBlock s before n) := by
  refine (resolveBlock_alike hw hw' h hs hR hn).bind fun p hp => ?_
  obtain ⟨hnode, hplaces, hr, -⟩ := resolveBlock_eq_ok hp
  split
  · exact .error (takenFault_alike hw hw' h hR hn hr hnode (hnode ▸ hplaces.body_eq))
  · exact .ok _

/-- A stack that is not disturbed becomes the same document, or none for the same cause. -/
theorem documentOf_alike (emit : Bool) :
    AlikeBy (SynthesisFault.Alike R S) (w.documentOf s emit) (w'.documentOf s emit) := by
  have hplaced : AlikeBy (SynthesisFault.Alike R S) (w.placeAll s) (w'.placeAll s) := by
    unfold placeAll
    rw [blockNodes_eq hw h hs]
    apply AlikeBy.foldlM
    intro n hn before
    exact (placeBlock_alike hw hw' h hs hR before hn).bind fun p _ => .ok _
  rw [documentOf_eq, documentOf_eq]
  refine hplaced.bind fun placed _ => ?_
  rw [referenceGraph_eq hw h hs, h.grows.id_eq (lt_size_of_isStack hs)]
  split
  · next c hc =>
    have hpaths : c.map w'.path = c.map w.path := by
      apply List.map_congr_left
      intro n hn
      have hlisted := (References.isCycle_of_cycle?_eq_some hc).mem_keys hn
      have hkeys : (w.referenceGraph s).map (·.1) = w.blockNodes s := by
        rw [referenceGraph, List.map_map]
        exact List.map_id _
      rw [hkeys] at hlisted
      exact path_eq_of_grows hw.forest hw'.forest h.grows (lt_size_of_mem_blockNodes hlisted)
    rw [hpaths]
    exact .error (.refl _)
  · exact .ok _

end Alike

section Namings

variable {s : NodeId}

/-- Paths of one place and texts that show one datum are related whatever has become of trees. -/
theorem relates_samePlace (w w' : Workspace) (s : NodeId) :
    Relates (SamePlace w.naming w'.naming) (SameShown w.naming w'.naming) w w' s where
  refl := .start
  item _ _ index h := .item index h
  key _ _ _ _ k _ _ _ h := .key k h
  shown _ _ _ := ⟨_, rfl, rfl⟩

/-- Where keys belong to no tree, paths and shown aliases are the same. -/
private theorem relates_eq (hkeys : ∀ n ∈ w.blockNodes s,
    (w.propertiesOf n).AllKeys fun ks => ∀ k ∈ ks, k.Treeless) : Relates Eq Eq w w' s where
  refl _ := rfl
  item p q index h := by rw [h]
  key n hn x hx k hk p q h := by rw [h, (hkeys n hn x hx k hk).plain_eq w w']
  shown n hn hr := by
    have hplain := everywhere_plain_bodyOf hr
    have hbody : (w.bodyOf (w.propertiesOf n)).AllKeys fun ks =>
        ∀ k ∈ ks, k.display w'.naming = k.display w.naming := by
      rw [w.relabels_bodyOf.allKeys_iff]
      exact fun x hx k hk => (hkeys n hn x hx k hk).display_eq w w'
    rw [aliasOf]
    cases halias : (w.bodyOf (w.propertiesOf n)).field? "alias" with
    | none =>
      rw [Option.getD_none, Datum.display, Datum.display, Atom.display, Atom.display]
    | some d =>
      have hd := Datum.within_of_field? halias
      refine (Datum.display_congr (fun x hx => ?_) (hbody.part hd)).symm
      have hx := hplain.part hd _ hx
      cases x with
      | scalar s => exact ⟨s, rfl⟩
      | _ => cases hx

/-- One refusal of a synthesis in two namings: the same cause, with paths of one place and aliases
that show one datum. -/
inductive Reworded (a b : Naming) : Fault → Fault → Prop
  | synthesis {f g : SynthesisFault} (h : f.Alike (SamePlace a b) (SameShown a b) g) :
      Reworded a b (.synthesis f) (.synthesis g)

/-- Requests after those for a network: it is synthesised, a change of it is asked for, and another
stack is given a bucket that shares what the subnet holds. -/
def bucketCalls : List Call :=
  [.synthesize (.atom (.entity (.node 0 true))) true, .setProperty 2 (.text "cidr") .null,
    .createStack 0 (.text "other"),
    .addBlock 4 .resource (.text "bucket") (.text "logs") (.cell 5),
    .addOverride 5 (.text "tags.owner") (.text "me")]

/-- Requests that declare a network with tags and, in another stack, a bucket; then the caller sets a
tag whose key is the bucket, to something that no document can hold. -/
def keyedCalls : List Call :=
  [.createApp "", .createStack 0 (.text "stack"), .createStack 0 (.text "other"),
    .addBlock 1 .resource (.text "bucket") (.text "logs") .null, .keep (.mapping []),
    .keep (.mapping [(.text "tags", .cell 3)]),
    .addBlock 0 .resource (.text "vpc") (.text "main") (.cell 4),
    .put 3 (.entity (.node 2 false)) (.atom (.entity (.object 0)))]

/-- Requests that declare a network and, in another stack, a bucket, and make the mapping that the
bucket keeps its properties in a property of the network. -/
def handedOverCalls : List Call :=
  [.createApp "", .createStack 0 (.text "stack"), .createStack 0 (.text "other"),
    .addBlock 1 .resource (.text "bucket") (.text "logs") .null,
    .addBlock 0 .resource (.text "vpc") (.text "main") .null,
    .setProperty 3 (.text "logs") (.cell 2)]

/-- A request that gives the bucket a property. -/
def bucketChange : Call := .setProperty 2 (.text "acl") (.text "private")

/-- The cause of a refusal, or the JSON text of what is made. -/
private def shown : Except Fault Document → Option Fault × Option String
  | .error fault => (some fault, none)
  | .ok doc => (none, (doc.toJson .oneLine).toOption)

/-- The change of the bucket is made elsewhere and writes no container of a caller, and yet the first
stack becomes something else after it. -/
def Unsteady (w : Workspace) : Prop :=
  Reached w ∧ (w.node 0).isStack = true ∧ Call.AllInScope w [bucketChange] ∧
    bucketChange.written? = none ∧ Call.AllElsewhere w 0 [bucketChange] ∧
    ((w.run [bucketChange]).synthesize (.atom (.entity (.node 0 true))) true).2 ≠
      (w.synthesize (.atom (.entity (.node 0 true))) true).2

private theorem ne_of_shown_ne {a b : Except Fault Document} (h : shown a ≠ shown b) : a ≠ b :=
  fun he => h (congrArg shown he)

end Namings

end Workspace

end Groundplan
