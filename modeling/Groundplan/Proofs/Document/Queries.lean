import Groundplan.Proofs.Datum.Matching
import Groundplan.Proofs.Document.RoundTrip

/-!
# Blocks that are found

Who asks a document for a resource, data source or provider by its type and some of its properties
finds the block of the stack that has them, and finds nothing that the stack does not have. This holds
of the document itself, of its datum and of its JSON text exactly if every such block has a type.
-/

namespace Groundplan

open Datum (Pruned Contains AllFields)

/-- The mappings of regular data are fields, also once fixed. -/
theorem Json.Regular.allFields_freeze {d : Datum} (h : Regular d) : AllFields d.freeze := by
  induction h with
  | scalar hs =>
    intro fixed es hw
    cases Datum.within_atom.mp hw
  | list _ ih =>
    intro fixed es hw
    rw [Datum.freeze, Datum.withFixed, Datum.withFixedItems_eq_map, Datum.within_sequence] at hw
    obtain hw | ⟨b, hb, hw⟩ := hw
    · cases hw
    · obtain ⟨d, hd, rfl⟩ := List.mem_map.mp hb
      exact ih d hd hw
  | mapping hes _ ih =>
    intro fixed es hw
    rw [Datum.freeze, Datum.withFixed, Datum.withFixedEntries_eq_map, Datum.within_mapping] at hw
    obtain hw | ⟨b, hb, hw⟩ := hw
    · cases hw
      exact (Entries.fields_iff_of_keys_eq (Entries.keys_mapValues (Datum.withFixed true) _)).mpr hes
    · obtain ⟨e, he, rfl⟩ := List.mem_map.mp hb
      exact ih e he hw

namespace Document

variable {doc : Document} {kind : BlockKind} {type : Datum}

/-- A block is found exactly if a body under the type has what the predicate asks for. -/
theorem hasTypeWith_eq_true {predicate : Datum} :
    doc.hasTypeWith kind type predicate = .ok true ↔
      (∃ fixed es, predicate = .mapping fixed es) ∧
        ∃ body ∈ doc.bodies kind type, body.satisfies predicate = true := by
  rw [← List.any_eq_true]
  constructor
  · intro h
    obtain ⟨_, hcheck, h⟩ := bind_eq_ok.mp h
    cases predicate with
    | mapping fixed es => exact ⟨⟨fixed, es, rfl⟩, Except.ok.inj h⟩
    | _ => cases hcheck
  · rintro ⟨⟨fixed, es, rfl⟩, h⟩
    exact congrArg Except.ok h

/-- Bodies stand under texts only. -/
theorem exists_text_of_mem_bodies {body : Datum} (h : body ∈ doc.bodies kind type) :
    ∃ s, type = .text s := by
  unfold bodies ofType? Datum.text? at h
  split at h
  · exact ⟨_, rfl⟩
  · cases h

end Document

namespace Workspace

variable {w : Workspace} {stack : NodeId} {doc : Document}

private theorem contains_atom {a : Atom} (h : a.Supported) :
    (Datum.withTokens w.token (.atom a)).Contains (Datum.withTokens w.token (.atom a)) := by
  cases a with
  | scalar s =>
    cases s with
    | bool b => exact .truth b
    | float x =>
      refine .atom (by simp) (by simp) ?_
      cases x with
      | signed s r => exact Binary64.eqValue_self s r
      | _ => cases h
    | _ => exact .atom (by simp) (by simp) (by simp [Atom.eqValue, Atom.eqBy, Scalar.eqValue])
  | reference r => exact .atom (by simp) (by simp) (by simp [Atom.eqValue, Atom.eqBy, Scalar.eqValue])
  | _ => cases h

/-- The body of a block contains what is left of its properties without some entries. -/
theorem contains_of_pruned {d q : Datum} (hd : Resolvable w stack d) (h : d.Pruned q) :
    (d.withTokens w.token).freeze.Contains (q.withTokens w.token) := by
  induction h with
  | atom a =>
    have hcontains := @contains_atom w a (hd.supported (.refl _))
    cases a <;> exact hcontains
  | @sequence f g items left hlength _ ih =>
    simp only [Datum.freeze, Datum.withTokens, Datum.withFixed, Datum.withTokensItems_eq_map,
      Datum.withFixedItems_eq_map]
    refine .sequence (by simpa using hlength) fun p hp => ?_
    rw [List.map_map, List.zip_map] at hp
    obtain ⟨pair, hpair, rfl⟩ := List.mem_map.mp hp
    exact ih pair hpair (resolvable_sequence.mp hd pair.1 (List.of_mem_zip hpair).1)
  | @mapping f g es left value hmem _ ih =>
    simp only [Datum.freeze, Datum.withTokens, Datum.withFixed, Datum.withTokensEntries_eq_map,
      Datum.withFixedEntries_eq_map]
    refine .mapping (fun k => ((value k).withTokens w.token).freeze) (fun e he => ?_) fun e he => ?_
    · obtain ⟨entry, hentry, rfl⟩ := List.mem_map.mp he
      rw [List.map_map]
      exact List.mem_map_of_mem (hmem entry hentry)
    · obtain ⟨entry, hentry, rfl⟩ := List.mem_map.mp he
      exact ih entry hentry (resolvable_mapping.mp hd _ (hmem entry hentry))

/-- The type of a node as a datum: a text, or null. -/
def typeOf (w : Workspace) (n : NodeId) : Datum := ((w.node n).typeTag.map Datum.text).getD .null

/-- The bodies that a document has under a type are those of the nodes of that type. -/
theorem Records.bodies_eq (h : w.Records stack doc) {kind : BlockKind} (hkind : kind ≠ .output)
    (type : String) :
    doc.bodies kind (.text type) = (w.nodesOfType stack kind (some type)).map w.fixedBody := by
  obtain ⟨types, htypes, hblocks⟩ := h.blocks_eq
  have hmem : some type ∈ types kind ∨ w.nodesOfType stack kind (some type) = [] := by
    refine or_iff_not_imp_right.mpr fun hne => (htypes kind).mem_iff.mpr ?_
    obtain ⟨n, hn⟩ := List.exists_mem_of_ne_nil _ hne
    obtain ⟨hn, htype⟩ := List.mem_filter.mp hn
    exact List.mem_map.mpr ⟨n, hn, by simpa using htype⟩
  have hbodies {value : Option String → Datum}
      (hvalue : Document.bodiesOf kind (value (some type)) =
        (w.nodesOfType stack kind (some type)).map w.fixedBody)
      (hsection : w.sectionWith stack (types kind) kind =
        .mapping true ((types kind).map fun t => (Key.ofText? t, value t))) :
      doc.bodies kind (.text type) = (w.nodesOfType stack kind (some type)).map w.fixedBody := by
    have hget : (doc.entriesOf kind).get? (.text type) =
        if some type ∈ types kind then some (value (some type)) else none := by
      rw [entriesOf_eq htypes hblocks, hsection]
      exact Entries.get?_map_ofText? (types kind) value (some type)
    show (((doc.entriesOf kind).get? (.text type)).map (Document.bodiesOf kind)).getD [] = _
    rw [hget]
    split
    · exact hvalue
    · next ht =>
      rw [hmem.resolve_left ht]
      rfl
  cases kind with
  | output => exact absurd rfl hkind
  | provider => exact hbodies rfl rfl
  | resource | data =>
    refine hbodies ?_ rfl
    simp [Document.bodiesOf, Datum.entries, Datum.entries?, byId, Entries.values]

/-- Asking a document for a block by its type and properties finds the blocks of the stack and nothing
else. -/
structure Answers (w : Workspace) (stack : NodeId) (doc : Document) : Prop where
  /-- A block is found by its type and what is left of its properties without some entries. -/
  complete : ∀ n ∈ w.blockNodes stack, ∀ kind, (w.node n).kind = .block kind → kind ≠ .output →
    ∀ q : Datum, (w.propertiesOf n).Pruned q →
      doc.hasTypeWith kind (w.typeOf n) (q.withTokens w.token) = .ok true
  /-- If anything is found, then a block of the type contains what was asked for. -/
  sound : ∀ kind, kind ≠ .output → ∀ type q : Datum,
    doc.hasTypeWith kind type (q.withTokens w.token) = .ok true →
      ∃ n ∈ w.blockNodes stack, (w.node n).kind = .block kind ∧ w.typeOf n = type ∧
        (w.fixedBody n).Contains (q.withTokens w.token)

section Settled

variable {placed : List Placed} (hs : w.Settled stack (w.blockNodes stack) placed) (hw : Built w)
include hs hw

/-- The mappings in the body of a block are fields. -/
private theorem Settled.allFields_fixedBody {n : NodeId} (hn : n ∈ w.blockNodes stack) :
    AllFields (w.fixedBody n) := by
  obtain ⟨p, hp, hplaces, rfl⟩ := hs.exists_places hn
  rw [fixedBody, ← freeze_bodyOf, ← hplaces.body_eq]
  exact (hs.regular hw.reached.stored (hw.allNamed stack) p hp).allFields_freeze

/-- The properties of a block are an open mapping. -/
private theorem Settled.exists_propertiesOf_eq {n : NodeId} (hn : n ∈ w.blockNodes stack) :
    ∃ es : Entries Datum, w.propertiesOf n = .mapping false es := by
  obtain ⟨p, -, hplaces, rfl⟩ := hs.exists_places hn
  obtain ⟨es, hes, -⟩ := hw.reached.stored.propertiesOf_eq (lt_size_of_kind hplaces.kind_eq)
  exact ⟨es, hes⟩

/-- A document that holds the blocks of a typed stack answers for them. -/
private theorem Settled.answers (h : w.Records stack doc) (htyped : w.AllTyped stack) :
    w.Answers stack doc where
  complete := by
    intro n hn kind hk hkind q hq
    obtain ⟨type, htype⟩ := Option.ne_none_iff_exists'.mp
      (htyped n hn (by rw [hk]; simpa using hkind))
    obtain ⟨es, hes⟩ := hs.exists_propertiesOf_eq hw hn
    have hmapping : ∃ fixed es, q.withTokens w.token = .mapping fixed es := by
      rw [hes] at hq
      cases hq with
      | mapping => exact ⟨_, _, rfl⟩
    have hmem : n ∈ w.nodesOfType stack kind (some type) := by
      simp [nodesOfType, nodesOf, hn, hk, htype]
    have hof : w.typeOf n = .text type := by rw [typeOf, htype]; rfl
    rw [hof, Document.hasTypeWith_eq_true, h.bodies_eq hkind]
    refine ⟨hmapping, _, List.mem_map_of_mem hmem, ?_⟩
    rw [Datum.satisfies_iff_contains (hs.allFields_fixedBody hw hn)]
    exact contains_of_pruned (hs.resolvable n hn) hq
  sound := by
    intro kind hkind type q hfound
    obtain ⟨-, body, hbody, hsatisfies⟩ := Document.hasTypeWith_eq_true.mp hfound
    obtain ⟨type, rfl⟩ := Document.exists_text_of_mem_bodies hbody
    rw [h.bodies_eq hkind] at hbody
    obtain ⟨n, hn, rfl⟩ := List.mem_map.mp hbody
    simp only [nodesOfType, nodesOf, List.mem_filter, decide_eq_true_eq] at hn
    obtain ⟨⟨hn, hk⟩, htype⟩ := hn
    refine ⟨n, hn, hk, by rw [typeOf, htype]; rfl, ?_⟩
    rwa [← Datum.satisfies_iff_contains (hs.allFields_fixedBody hw hn)]

/-- No document answers for a block without a type. -/
private theorem Settled.typed_of_answers (h : w.Answers stack doc) : w.AllTyped stack := by
  intro n hn hk htype
  obtain ⟨es, hes⟩ := hs.exists_propertiesOf_eq hw hn
  obtain ⟨p, -, hplaces, rfl⟩ := hs.exists_places hn
  have hempty : (w.propertiesOf p.node).Pruned (.mapping false []) := by
    rw [hes]
    exact .mapping (fun _ => .null) (by simp) (by simp)
  have hkind : p.kind ≠ .output := fun he => hk (he ▸ hplaces.kind_eq)
  have hfound := h.complete p.node hn p.kind hplaces.kind_eq hkind _ hempty
  obtain ⟨-, body, hbody, -⟩ := Document.hasTypeWith_eq_true.mp hfound
  obtain ⟨s, hs⟩ := Document.exists_text_of_mem_bodies hbody
  rw [typeOf, htype] at hs
  cases hs

end Settled

/-- The document of a stack, what is loaded from its datum and what is loaded from its JSON text find
the blocks of the stack and nothing else exactly if all of them have a type. -/
theorem answers_synthesized (hw : Built w) {emit : Bool}
    (h : (w.synthesize (.atom (.entity (.node stack true))) emit).2 = .ok doc) (naming : Naming) :
    (w.Answers stack doc ↔ w.AllTyped stack) ∧
      (∃ found, Document.load naming doc.toDatum = .ok found ∧
        (w.Answers stack found ↔ w.AllTyped stack)) ∧
      ∀ {n : Int} {text : String}, doc.toJson (.ofSpaces n) = .ok text →
        ((∃ found, Document.load naming (.text text) = .ok found ∧ w.Answers stack found) ↔
          w.AllTyped stack) := by
  obtain ⟨placed, hs, rfl⟩ := synthesize_eq_ok h
  have hload := Document.load_toDatum (hs.shaped hw.reached.stored) (w.node stack).id emit naming
  have hanswers (found : Document)
      (hfound : found.blocks = (Placed.sections placed).mapValues Datum.freeze) :
      w.Answers stack found ↔ w.AllTyped stack :=
    ⟨fun ha => hs.typed_of_answers hw ha, hs.answers hw (records_of_settled hs hfound)⟩
  refine ⟨hanswers _ rfl, ⟨_, hload, hanswers _ rfl⟩, fun {n text} htext => ⟨?_, fun htyped => ?_⟩⟩
  · rintro ⟨found, -, ha⟩
    exact hs.typed_of_answers hw ha
  · rw [hs.load_toJson hw htyped htext]
    exact ⟨_, hload, (hanswers _ rfl).mpr htyped⟩

/-- The document of a network and its subnet answers for both of them. -/
theorem answers_synthesized_network : ∃ doc,
    ((run {} networkCalls).synthesize (.atom (.entity (.node 0 true))) true).2 = .ok doc ∧
      (run {} networkCalls).Answers 0 doc ∧
      ∀ {text : String}, doc.toJson (.ofSpaces 2) = .ok text →
        ∃ found, Document.load Naming.bare (.text text) = .ok found ∧
          (run {} networkCalls).Answers 0 found := by
  have hw : Built (run {} networkCalls) := Built.start.run (by decide +kernel) (by decide +kernel)
  have hok : ((run {} networkCalls).synthesize (.atom (.entity (.node 0 true))) true).2.isOk =
      true := by decide +kernel
  have htyped : (run {} networkCalls).AllTyped 0 := by decide +kernel
  cases h : ((run {} networkCalls).synthesize (.atom (.entity (.node 0 true))) true).2 with
  | error e =>
    rw [h] at hok
    cases hok
  | ok doc =>
    obtain ⟨hanswers, -, htext⟩ := answers_synthesized hw h Naming.bare
    exact ⟨doc, rfl, hanswers.mpr htyped, fun ht => (htext ht).mpr htyped⟩

/-- In the JSON text of a resource without a type one of the type null is found, which is no type of
the stack. -/
theorem answers_typeless : ∃ doc text found, Built (run {} typelessCalls) ∧
    ((run {} typelessCalls).synthesize (.atom (.entity (.node 0 true))) true).2 = .ok doc ∧
    doc.toJson (.ofSpaces 2) = .ok text ∧ Document.load Naming.bare (.text text) = .ok found ∧
    found.hasTypeWith .resource (.text "null") (.mapping false []) = .ok true ∧
    ∀ n ∈ (run {} typelessCalls).blockNodes 0,
      ((run {} typelessCalls).node n).typeTag ≠ some "null" := by
  have hw : Built (run {} typelessCalls) := Built.start.run (by decide +kernel) (by decide +kernel)
  have hrun : (((run {} typelessCalls).synthesize
      (.atom (.entity (.node 0 true))) true).2.toOption.bind fun doc =>
        (doc.toJson (.ofSpaces 2)).toOption.bind fun text =>
          (Document.load Naming.bare (.text text)).toOption.bind fun found =>
            (found.hasTypeWith .resource (.text "null") (.mapping false [])).toOption) =
      some true := by
    decide +kernel
  obtain ⟨doc, hdoc, hrun⟩ := Option.bind_eq_some_iff.mp hrun
  obtain ⟨text, htext, hrun⟩ := Option.bind_eq_some_iff.mp hrun
  obtain ⟨found, hfound, hanswer⟩ := Option.bind_eq_some_iff.mp hrun
  exact ⟨doc, text, found, hw, toOption_eq_some.mp hdoc, toOption_eq_some.mp htext,
    toOption_eq_some.mp hfound, toOption_eq_some.mp hanswer, by decide +kernel⟩

end Workspace

end Groundplan
