import Groundplan.Proofs.Document.Loading
import Groundplan.Proofs.Json.Reading
import Groundplan.Proofs.Json.RoundTrip
import Groundplan.Proofs.Workspace.Trees
import Groundplan.Proofs.Workspace.Validated

/-!
# Documents read back

A document that a stack becomes is loaded from its own datum as itself, except for a name that no
metadata state. Its JSON text is loaded as itself exactly if every resource, data source and provider
has a type: a block may be declared without one, it then stands under null in the document, and in the
JSON text under the text of it.
-/

namespace Groundplan

/-- The keys are texts. -/
def Key.AllTexts (ks : List Key) : Prop := ∀ k ∈ ks, ∃ s, k = .text s

theorem Key.allTexts_nil : Key.AllTexts [] := by simp [AllTexts]

namespace Placed

variable {placed : List Placed}

private theorem exists_ofText?_eq {p : Placed} (h : p.typeTag ≠ none) :
    ∃ s, Key.ofText? p.typeTag = .text s := by
  obtain ⟨s, hs⟩ := Option.ne_none_iff_exists'.mp h
  exact ⟨s, by rw [hs]; rfl⟩

/-- Types come once each. -/
private theorem fields_types {own : List Placed} (h : ∀ p ∈ own, p.typeTag ≠ none)
    (value : Option String → Datum) :
    Entries.Fields ((types own).map fun type => (Key.ofText? type, value type)) := by
  refine Entries.fields_map (fun t ht => ?_) ?_
  · obtain ⟨p, hp, rfl⟩ := List.mem_map.mp (List.mem_eraseDups.mp ht)
    exact exists_ofText?_eq (h p hp)
  · apply (nodup_types own).imp
    intro a b hab
    rw [Key.same_ofText?]
    simpa using hab

/-- Ids come once each among blocks that do not clash. -/
private theorem fields_ids {own : List Placed}
    (h : own.Pairwise fun q p => p.id ≠ q.id) :
    Entries.Fields (own.map fun p => (.text p.id, p.body)) := by
  refine Entries.fields_map (fun p _ => ⟨p.id, rfl⟩) (h.imp fun {q p} hne => ?_)
  rw [Key.same_text, beq_eq_false_iff_ne]
  exact hne.symm

/-- The type of a block is a key of its section. -/
theorem mem_keys_sectionOf {p : Placed} (hp : p ∈ placed) (hk : p.kind ≠ .output) :
    Key.ofText? p.typeTag ∈ (sectionOf p.kind placed).entries.keys := by
  have htype : p.typeTag ∈ types (placed.filter fun q => q.kind == p.kind) :=
    List.mem_eraseDups.mpr (List.mem_map_of_mem (List.mem_filter.mpr ⟨hp, by simp⟩))
  have hkeys {value : Option String → Datum} : Key.ofText? p.typeTag ∈
      Entries.keys ((types (placed.filter fun q => q.kind == p.kind)).map fun type =>
        (Key.ofText? type, value type)) := by
    rw [Entries.keys, List.map_map]
    exact List.mem_map_of_mem htype
  unfold sectionOf
  split
  · next h => exact absurd h hk
  · exact hkeys
  · exact hkeys
  · exact hkeys

variable (hregular : ∀ p ∈ placed, Json.Regular p.body)
  (hfree : placed.Pairwise fun q p => p.clashes q = false)
  (htyped : ∀ p ∈ placed, p.kind ≠ .output → p.typeTag ≠ none)
include hregular hfree htyped

/-- The section that typed blocks with regular bodies make up is regular. -/
theorem regular_sectionOf (kind : BlockKind) : Json.Regular (sectionOf kind placed) := by
  have hmem {p : Placed} (hp : p ∈ placed.filter fun p => p.kind == kind) :
      p ∈ placed ∧ p.kind = kind := by simpa using hp
  have hown := hfree.filter fun p => p.kind == kind
  cases kind with
  | output =>
    refine .mapping (fields_ids (hown.imp_of_mem fun {q p} hq hp hc => ?_)) fun e he => ?_
    · rw [clashes, (hmem hq).2, (hmem hp).2] at hc
      simpa using hc
    · obtain ⟨p, hp, rfl⟩ := List.mem_map.mp he
      exact hregular p (hmem hp).1
  | provider =>
    refine .mapping (fields_types (fun p hp => htyped p (hmem hp).1 ?_) _) fun e he => ?_
    · rw [(hmem hp).2]
      decide
    · obtain ⟨t, -, rfl⟩ := List.mem_map.mp he
      refine .list fun d hd => ?_
      obtain ⟨p, hp, rfl⟩ := List.mem_map.mp hd
      exact hregular p (hmem (List.mem_of_mem_filter hp)).1
  | resource | data =>
    refine .mapping (fields_types (fun p hp => htyped p (hmem hp).1 ?_) _) fun e he => ?_
    · rw [(hmem hp).2]
      decide
    · obtain ⟨t, -, rfl⟩ := List.mem_map.mp he
      refine .mapping (fields_ids ?_) fun e he => ?_
      · apply (hown.filter _).imp_of_mem
        intro q p hq hp hc
        have hq := List.mem_filter.mp hq
        have hp := List.mem_filter.mp hp
        rw [clashes, (hmem hq.1).2, (hmem hp.1).2, beq_iff_eq.mp hp.2, beq_iff_eq.mp hq.2] at hc
        simpa using hc
      · obtain ⟨p, hp, rfl⟩ := List.mem_map.mp he
        exact hregular p (hmem (List.mem_of_mem_filter hp)).1

/-- The sections that hold a block are fields with regular sections. -/
theorem regular_filled :
    (filled placed).Fields ∧ ∀ e ∈ filled placed, Json.Regular e.2 := by
  constructor
  · refine Entries.fields_map (fun kind _ => ⟨kind.name, rfl⟩) ?_
    have hall : BlockKind.all.Pairwise fun a b => a.key.same b.key = false := by decide
    exact hall.filter _
  · intro e he
    obtain ⟨kind, -, rfl⟩ := List.mem_map.mp he
    exact regular_sectionOf hregular hfree htyped kind

end Placed

namespace Document

variable {placed : List Placed}

private theorem regular_record {fields : List (String × Datum)} (hnames : (fields.map (·.1)).Nodup)
    (h : ∀ e ∈ fields, Json.Regular e.2) : Json.Regular (.record fields) := by
  refine .mapping (Entries.fields_map (fun e _ => ⟨e.1, rfl⟩) ?_) fun e he => ?_
  · apply (List.pairwise_map.mp hnames).imp
    intro a b hab
    simpa using hab
  · obtain ⟨field, hfield, rfl⟩ := List.mem_map.mp he
    exact h field hfield

private theorem regular_metadata (name : String) :
    Json.Regular (.mapping false (Workspace.metadata name)) := by
  have htext (s : String) : Json.Regular (.text s) := .scalar (by rintro x ⟨⟩)
  have hinner : Json.Regular (.record
      [("backend", .text "local"), ("stackName", .text name), ("version", .text version)]) :=
    regular_record (by simp) (by simp [htext])
  exact @regular_record [("metadata", _)] (by simp) (by simpa using hinner)

/-- The datum of a document of typed blocks with regular bodies is regular. -/
theorem regular_toDatum (hshaped : ∀ p ∈ placed, p.Shaped)
    (hregular : ∀ p ∈ placed, Json.Regular p.body)
    (hfree : placed.Pairwise fun q p => p.clashes q = false)
    (htyped : ∀ p ∈ placed, p.kind ≠ .output → p.typeTag ≠ none) (name : String) (emit : Bool) :
    Json.Regular (of name (Placed.sections placed)
      (if emit then Workspace.metadata name else [])).toDatum := by
  obtain ⟨hfields, hsections⟩ := Placed.regular_filled hregular hfree htyped
  rw [toDatum_of hshaped]
  cases emit with
  | false => exact .mapping hfields hsections
  | true =>
    have hnew : metadataKey ∉ Entries.keys (Placed.filled placed) := by
      intro hk
      rw [Placed.filled, Entries.keys, List.map_map] at hk
      obtain ⟨kind, -, hk⟩ := List.mem_map.mp hk
      cases kind <;> simp [metadataKey, BlockKind.name] at hk
    refine .mapping (Entries.fields_cons.mpr ⟨⟨"//", rfl, hnew⟩, hfields⟩) ?_
    exact List.forall_mem_cons.mpr ⟨regular_metadata name, hsections⟩

/-- A section of what is loaded stands in what it is loaded from, unless it is empty. -/
private theorem section?_of_ofEntries {naming : Naming} {entries : Entries Datum} {doc : Document}
    (h : ofEntries naming entries = .ok doc) {kind : BlockKind} {d : Datum}
    (hd : doc.section? kind = some d) (htruthy : d.isTruthy = true) :
    ∃ v, entries.get? kind.key = some v ∧ d = v.freeze := by
  obtain ⟨-, rfl⟩ := ofEntries_eq_ok.mp h
  rw [section?_loaded] at hd
  obtain ⟨v, hv, rfl⟩ := Option.map_eq_some_iff.mp hd
  rcases Option.or_eq_some_iff.mp hv with hv | ⟨-, hv⟩
  · exact ⟨v, hv, rfl⟩
  · split at hv
    · cases hv
      cases htruthy
    · cases hv

/-- Changing fixedness keeps the keys of a mapping. -/
theorem keys_entries_freeze (d : Datum) : d.freeze.entries.keys = d.entries.keys := by
  cases d with
  | mapping fixed es =>
    rw [Datum.freeze, Datum.withFixed, Datum.withFixedEntries_eq_map]
    exact Entries.keys_mapValues (Datum.withFixed true) es
  | _ => rfl

/-- Entries of equal value have the same keys. -/
private theorem exists_of_sameEntries {as bs : Entries Datum} (h : Datum.sameEntries as bs = true)
    {e : Key × Datum} (he : e ∈ as) : ∃ b, bs.get? e.1 = some b ∧ e.2.same b = true := by
  induction as with
  | nil => cases he
  | cons a as ih =>
    obtain ⟨k, a⟩ := a
    rw [Datum.sameEntries, Bool.and_eq_true] at h
    cases he with
    | tail _ he => exact ih h.2 he
    | head =>
      cases hb : bs.get? k with
      | none =>
        rw [hb] at h
        cases h.1
      | some b =>
        rw [hb] at h
        exact ⟨b, rfl, h.1⟩

/-- Documents of equal value have the same keys in a section. -/
theorem get?_isSome_of_same {a b : Document} (h : a.same b = true) {kind : BlockKind} {d : Datum}
    (hd : a.section? kind = some d) {k : Key} (hk : k ∈ d.entries.keys) :
    ∃ e, b.section? kind = some e ∧ (e.entries.get? k).isSome = true := by
  have hblocks : Datum.sameEntries a.blocks b.blocks = true := by
    simp only [same, Datum.same, Bool.and_eq_true] at h
    exact h.1.2.2
  obtain ⟨e, he, hsame⟩ := exists_of_sameEntries hblocks (Entries.mem_of_get?_text hd)
  refine ⟨e, he, ?_⟩
  cases d with
  | mapping f es =>
    cases e with
    | mapping g es' =>
      rw [Datum.same, Bool.and_eq_true] at hsame
      obtain ⟨entry, hentry, rfl⟩ := List.mem_map.mp hk
      obtain ⟨v, hv, -⟩ := exists_of_sameEntries hsame.2 hentry
      show (Entries.get? es' entry.1).isSome = true
      rw [hv]
      rfl
    | _ => cases hsame
  | _ => cases hk

/-- A section that is loaded from text and holds anything is part of what the text reads as. -/
theorem exists_within_of_load {naming : Naming} {text : String} {doc : Document}
    (h : load naming (.text text) = .ok doc) {kind : BlockKind} {d : Datum}
    (hd : doc.section? kind = some d) (htruthy : d.isTruthy = true) :
    ∃ x v, Json.read text = .ok x ∧ Datum.Within v x ∧ d = v.freeze := by
  change ofRead naming (Json.read text) = .ok doc at h
  cases hread : Json.read text with
  | error fault =>
    rw [hread] at h
    cases h
  | ok datum =>
    rw [hread] at h
    cases datum with
    | mapping fixed entries =>
      obtain ⟨v, hv, rfl⟩ := section?_of_ofEntries h hd htruthy
      exact ⟨_, v, rfl, .entry (Entries.mem_of_get?_text hv) (.refl v), rfl⟩
    | _ => cases h

/-- Sections that are loaded from text have texts for keys. -/
theorem text_keys_of_load {naming : Naming} {text : String} {doc : Document}
    (h : load naming (.text text) = .ok doc) {kind : BlockKind} {d : Datum}
    (hd : doc.section? kind = some d) (htruthy : d.isTruthy = true) :
    ∀ k ∈ d.entries.keys, ∃ s, k = .text s := by
  obtain ⟨x, v, hread, hwithin, rfl⟩ := exists_within_of_load h hd htruthy
  rw [keys_entries_freeze]
  cases v with
  | mapping f es => exact (Json.fields_of_read hread hwithin).texts
  | _ => simp [Datum.entries, Datum.entries?, Entries.keys]

end Document

namespace Workspace

variable {w : Workspace} {stack : NodeId}

/-- A body is regular if the mappings of what it is made from are fields. -/
theorem regular_bodyOf {d : Datum} (hr : Resolvable w stack d)
    (hf : ∀ {fixed : Bool} {es : Entries Datum}, Datum.Within (.mapping fixed es) d → es.Fields) :
    Json.Regular (w.bodyOf d) := by
  induction d using Datum.induction with
  | atom a =>
    have hs : a.Supported := hr.supported (.refl _)
    cases a with
    | scalar s =>
      refine .scalar ?_
      rintro x rfl
      exact hs
    | reference r => exact .scalar (by rintro x ⟨⟩)
    | _ => cases hs
  | loop c => exact absurd hr.loopFree (Datum.not_loopFree_loop c)
  | sequence fixed items ih =>
    rw [bodyOf_sequence]
    refine .list fun b hb => ?_
    obtain ⟨d, hd, rfl⟩ := List.mem_map.mp hb
    exact ih d hd (resolvable_sequence.mp hr d hd) fun hw => hf (.item hd hw)
  | mapping fixed es ih =>
    have hkeys := Entries.keys_mapValues w.bodyOf es
    rw [bodyOf_mapping]
    refine .mapping ((Entries.fields_iff_of_keys_eq hkeys).mpr (hf (.refl _))) fun b hb => ?_
    obtain ⟨e, he, rfl⟩ := List.mem_map.mp hb
    exact ih e he (resolvable_mapping.mp hr e he) fun hw => hf (.entry he hw)

/-- Only a node that is there is a block. -/
theorem lt_size_of_kind {n : NodeId} {kind : BlockKind}
    (h : (w.node n).kind = .block kind) : n < w.nodes.size :=
  lt_size_of_kind_ne (by simp [h])

/-- The properties of a node are an open mapping, that of an output with a value. -/
theorem Stored.propertiesOf_eq (hw : w.Stored) {n : NodeId} (hn : n < w.nodes.size) :
    ∃ es : Entries Datum, w.propertiesOf n = .mapping false es ∧
      ((w.node n).kind = .block .output → es.has (.text "value") = true) := by
  obtain ⟨c, es, hc, hes, hvalue⟩ := hw.own n hn
  refine ⟨es.mapValues (w.heap.read w.heap.cells.size [c]), ?_, fun hk => ?_⟩
  · rw [propertiesOf, hc, Heap.datum, Heap.read_cell_succ, if_neg List.not_mem_nil, Heap.layer, hes]
  · rw [Entries.has_eq_any_keys, Entries.keys_mapValues, ← Entries.has_eq_any_keys]
    exact hvalue hk

/-- Blocks that took their slots are shaped. -/
theorem Settled.shaped (hw : w.Stored) {nodes : List NodeId} {placed : List Placed}
    (hs : w.Settled stack nodes placed) : ∀ p ∈ placed, p.Shaped := by
  intro p hp
  have hplaces := hs.places p hp
  obtain ⟨es, hes, hvalue⟩ := hw.propertiesOf_eq (lt_size_of_kind hplaces.kind_eq)
  refine ⟨?_, es.mapValues w.bodyOf, ?_, fun hk => ?_⟩
  · rw [hplaces.body_eq, bodyOf, Datum.thaw, Datum.thaw, Datum.withFixed_withFixed]
  · rw [hplaces.body_eq, hes, bodyOf_mapping]
  · rw [Entries.has_eq_any_keys, Entries.keys_mapValues, ← Entries.has_eq_any_keys]
    exact hvalue (hk ▸ hplaces.kind_eq)

/-- Every resource, data source and provider of a stack has a type. -/
def AllTyped (w : Workspace) (stack : NodeId) : Prop :=
  ∀ n ∈ w.blockNodes stack, (w.node n).kind ≠ .block .output → (w.node n).typeTag ≠ none

instance (w : Workspace) (stack : NodeId) : Decidable (w.AllTyped stack) :=
  inferInstanceAs (Decidable (∀ n ∈ w.blockNodes stack, _ → _))

/-- The keys of all mappings that the blocks of a stack hold are names. -/
def AllNamed (w : Workspace) (stack : NodeId) : Prop :=
  ∀ n ∈ w.blockNodes stack, ∀ c es, w.heap.Reaches (w.node n).properties (.cell c) →
    w.heap.entries? c = some es → es.Named

/-- They are while the caller leaves alone what nodes hold. -/
theorem Built.allNamed (hw : Built w) (stack : NodeId) : w.AllNamed stack :=
  fun n hn _ _ hr hes => hw.validated.named ⟨n, lt_size_of_mem_blockNodes hn, hr⟩ hes

/-- Names are texts. -/
theorem AllNamed.allTexts (h : w.AllNamed stack) :
    ∀ n ∈ w.blockNodes stack, (w.propertiesOf n).AllKeys Key.AllTexts :=
  fun n hn => (Heap.allKeys_datum_iff Key.allTexts_nil).mpr fun c es hr hes k hk =>
    (h n hn c es hr hes k hk).imp fun _ hs => hs.1

section Settled

variable {placed : List Placed} (hs : w.Settled stack (w.blockNodes stack) placed)
include hs

/-- The blocks of a stack are typed if its nodes are. -/
theorem Settled.typed (h : w.AllTyped stack) :
    ∀ p ∈ placed, p.kind ≠ .output → p.typeTag ≠ none := by
  intro p hp hk
  have hplaces := hs.places p hp
  rw [hplaces.typeTag_eq]
  apply h p.node (hs.mem_nodes hp)
  rw [hplaces.kind_eq]
  simpa using hk

/-- The bodies of blocks with texts for keys are regular. -/
theorem Settled.regular_of_allTexts (hw : w.Stored)
    (htexts : ∀ n ∈ w.blockNodes stack, (w.propertiesOf n).AllKeys Key.AllTexts) :
    ∀ p ∈ placed, Json.Regular p.body := by
  intro p hp
  have honce : (w.propertiesOf p.node).AllKeys fun ks => (ks.filterMap Key.text?).Nodup := by
    refine (Heap.allKeys_datum_iff ?_).mpr fun c es hr hes => ?_
    · exact List.nodup_nil
    · exact Entries.textsOnce_of_distinct (hw.tidy.entries hes)
  rw [(hs.places p hp).body_eq]
  exact regular_bodyOf (hs.resolvable p.node (hs.mem_nodes hp)) fun hx =>
    ⟨htexts p.node (hs.mem_nodes hp) _ hx, honce _ hx⟩

/-- The bodies of blocks with names for keys are regular. -/
theorem Settled.regular (hw : w.Stored) (hnamed : w.AllNamed stack) :
    ∀ p ∈ placed, Json.Regular p.body :=
  hs.regular_of_allTexts hw hnamed.allTexts

/-- From the JSON text of typed blocks with texts for keys, with blanks after it, the same is loaded
as from the datum it is written for. -/
theorem Settled.load_toJson_append (hw : w.Stored) (h : w.AllTyped stack)
    (htexts : ∀ n ∈ w.blockNodes stack, (w.propertiesOf n).AllKeys Key.AllTexts) {emit : Bool}
    {n : Int} {text : String} (htext : (Document.of (w.node stack).id (Placed.sections placed)
      (if emit then metadata (w.node stack).id else [])).toJson (.ofSpaces n) = .ok text)
    {blanks : String} (hblanks : ∀ c ∈ blanks.toList, c = '\n' ∨ c = ' ') (naming : Naming) :
    Document.load naming (.text (text ++ blanks)) =
      .ok (.of (if emit then (w.node stack).id else "") (Placed.sections placed)
        (if emit then metadata (w.node stack).id else [])) := by
  have hshaped := hs.shaped hw
  have hread := Json.read_print_append (Document.regular_toDatum hshaped
    (hs.regular_of_allTexts hw htexts) hs.free (hs.typed h) (w.node stack).id emit) htext hblanks
  rw [← Document.load_toDatum hshaped (w.node stack).id emit naming]
  show Document.ofRead naming (Json.read (text ++ blanks)) = _
  rw [hread]
  rfl

/-- From the JSON text of a typed stack the same is loaded as from the datum it is written for. -/
theorem Settled.load_toJson (hw : Built w) (h : w.AllTyped stack) {emit : Bool} {n : Int}
    {text : String} (htext : (Document.of (w.node stack).id (Placed.sections placed)
      (if emit then metadata (w.node stack).id else [])).toJson (.ofSpaces n) = .ok text)
    (naming : Naming) :
    Document.load naming (.text text) = Document.load naming
      (Document.of (w.node stack).id (Placed.sections placed)
        (if emit then metadata (w.node stack).id else [])).toDatum := by
  have hload := hs.load_toJson_append hw.reached.stored h (hw.allNamed stack).allTexts htext
    (by simp : ∀ c ∈ "".toList, c = '\n' ∨ c = ' ') naming
  rw [String.append_empty] at hload
  rw [hload, Document.load_toDatum (hs.shaped hw.reached.stored)]

/-- What is loaded from text is another document if a node has no type. -/
private theorem Settled.not_same_of_load {naming : Naming} {text name : String}
    {metadata : Entries Datum} (h : ¬ w.AllTyped stack) {found : Document}
    (hfound : Document.load naming (.text text) = .ok found) :
    Document.same (.of name (Placed.sections placed) metadata) found = false := by
  refine Bool.eq_false_iff.mpr fun hsame => h fun n hn hk htype => ?_
  obtain ⟨p, hp, hplaces, rfl⟩ := hs.exists_places hn
  have hkind : p.kind ≠ .output := fun he => hk (he ▸ hplaces.kind_eq)
  have hany : (placed.any fun q => q.kind == p.kind) = true :=
    List.any_eq_true.mpr ⟨p, hp, by simp⟩
  have hsection : (Document.of name (Placed.sections placed) metadata).section? p.kind =
      some (Placed.sectionOf p.kind placed).freeze := by
    rw [Document.section?_of, Placed.get?_sections, if_pos hany]
    rfl
  have hkey := Placed.mem_keys_sectionOf hp hkind
  rw [← Document.keys_entries_freeze, hplaces.typeTag_eq, htype] at hkey
  obtain ⟨d, hd, hget⟩ := Document.get?_isSome_of_same hsame hsection hkey
  rw [← Entries.has_eq_isSome_get?, Entries.has_eq_any_keys, List.any_eq_true] at hget
  obtain ⟨k, hk, hnull⟩ := hget
  have htruthy : d.isTruthy = true := by
    cases d with
    | mapping fixed es =>
      cases es with
      | nil => cases hk
      | cons e es => rfl
    | _ => cases hk
  obtain ⟨s, rfl⟩ := Document.text_keys_of_load hfound hd htruthy k hk
  cases hnull

end Settled

/-- A document is loaded from its own datum as itself, and if its stack is typed, from its JSON text
too; else that is another document or none. Without metadata the name of the stack is lost. -/
theorem load_synthesized (hw : Built w) {emit : Bool} {doc : Document}
    (h : (w.synthesize (.atom (.entity (.node stack true))) emit).2 = .ok doc) (naming : Naming) :
    Document.load naming doc.toDatum =
        .ok (if emit then doc else { doc with stackName := "" }) ∧
      ∀ {n : Int} {text : String}, doc.toJson (.ofSpaces n) = .ok text →
        (w.AllTyped stack → Document.load naming (.text text) =
          .ok (if emit then doc else { doc with stackName := "" })) ∧
        (¬ w.AllTyped stack → ∀ found, Document.load naming (.text text) = .ok found →
          (if emit then doc else { doc with stackName := "" }).same found = false) := by
  obtain ⟨placed, hs, rfl⟩ := synthesize_eq_ok h
  have hshaped := hs.shaped hw.reached.stored
  have hexpected : (if emit then Document.of (w.node stack).id (Placed.sections placed)
        (if emit then metadata (w.node stack).id else [])
      else { Document.of (w.node stack).id (Placed.sections placed)
        (if emit then metadata (w.node stack).id else []) with stackName := "" }) =
      .of (if emit then (w.node stack).id else "") (Placed.sections placed)
        (if emit then metadata (w.node stack).id else []) := by
    cases emit <;> rfl
  have hload := Document.load_toDatum hshaped (w.node stack).id emit naming
  rw [hexpected]
  refine ⟨hload, fun {n text} htext => ⟨fun htyped => ?_, fun hno found hfound =>
    hs.not_same_of_load hno hfound⟩⟩
  rw [hs.load_toJson hw htyped htext, hload]

/-- The document of a network and its subnet is loaded as itself. -/
theorem load_synthesized_network : ∃ doc,
    ((run {} networkCalls).synthesize (.atom (.entity (.node 0 true))) true).2 = .ok doc ∧
      Document.load Naming.bare doc.toDatum = .ok doc ∧
      ∀ {text : String}, doc.toJson (.ofSpaces 2) = .ok text →
        Document.load Naming.bare (.text text) = .ok doc := by
  have hw : Built (run {} networkCalls) := Built.start.run (by decide +kernel) (by decide +kernel)
  have hok : ((run {} networkCalls).synthesize (.atom (.entity (.node 0 true))) true).2.isOk =
      true := by decide +kernel
  have htyped : (run {} networkCalls).AllTyped 0 := by decide +kernel
  cases h : ((run {} networkCalls).synthesize (.atom (.entity (.node 0 true))) true).2 with
  | error e =>
    rw [h] at hok
    cases hok
  | ok doc =>
    obtain ⟨hdatum, htext⟩ := load_synthesized hw h Naming.bare
    exact ⟨doc, rfl, hdatum, fun ht => (htext ht).1 htyped⟩

/-- From the JSON text of the document of a resource without a type another document is loaded. -/
theorem load_typeless : ∃ doc text found, Built (run {} typelessCalls) ∧
    ((run {} typelessCalls).synthesize (.atom (.entity (.node 0 true))) true).2 = .ok doc ∧
    doc.toJson (.ofSpaces 2) = .ok text ∧ Document.load Naming.bare (.text text) = .ok found ∧
    doc.same found = false := by
  have hw : Built (run {} typelessCalls) := Built.start.run (by decide +kernel) (by decide +kernel)
  -- the key null of the document has become a text in what is loaded
  have hrun : (((run {} typelessCalls).synthesize
      (.atom (.entity (.node 0 true))) true).2.toOption.bind fun doc =>
        (doc.toJson (.ofSpaces 2)).toOption.bind fun text =>
          (Document.load Naming.bare (.text text)).toOption.map doc.same) = some false := by
    decide +kernel
  obtain ⟨doc, hdoc, hrun⟩ := Option.bind_eq_some_iff.mp hrun
  obtain ⟨text, htext, hrun⟩ := Option.bind_eq_some_iff.mp hrun
  obtain ⟨found, hfound, hsame⟩ := Option.map_eq_some_iff.mp hrun
  exact ⟨doc, text, found, hw, toOption_eq_some.mp hdoc, toOption_eq_some.mp htext,
    toOption_eq_some.mp hfound, hsame⟩

end Workspace

end Groundplan
