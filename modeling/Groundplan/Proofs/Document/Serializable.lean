import Groundplan.Proofs.Document.RoundTrip
import Groundplan.Proofs.Workspace.Lineage

/-!
# Documents that have a JSON text

All leaves of a document that a stack becomes are scalars that JSON has a form for. Its keys are names
exactly if every resource, data source and provider has a type and no mapping that a block holds has
another key: synthesis resolves what keys lead to and passes over the keys themselves, so a caller who
writes a container that was declared with can bring any key into a document. Where all keys are names,
the document has a JSON text, unless an integer in it has too many digits, and no two entries of a
mapping are written under one key.
-/

namespace Groundplan

/-- The keys are texts other than the empty one. -/
def Key.AllNames (ks : List Key) : Prop := ∀ k ∈ ks, ∃ s, k = .text s ∧ s ≠ ""

theorem Key.allNames_nil : Key.AllNames [] := by simp [AllNames]

/-- What a path of keys leads to stands in the datum that the path starts from. -/
theorem Datum.within_of_fields {names : List String} {d x : Datum}
    (h : names.foldlM Datum.field? d = some x) : Within x d := by
  induction names generalizing d with
  | nil =>
    cases h
    exact .refl _
  | cons name names ih =>
    rw [List.foldlM_cons] at h
    obtain ⟨d', hd', hrest⟩ := Option.bind_eq_some_iff.mp h
    exact (ih hrest).trans (within_of_field? hd')

namespace Json

/-- Texts are told apart by what is written for them. -/
theorem textChars_injective {s t : String} (h : textChars s = textChars t) : s = t := by
  have hbody : s.toList.flatMap escape ++ ['"'] = t.toList.flatMap escape ++ ['"'] :=
    List.tail_eq_of_cons_eq h
  have hs := textBody_flatMap_escape 0 [] s.toList []
  rw [hbody, textBody_flatMap_escape] at hs
  have ht : t.toList = s.toList := congrArg Prod.fst (Except.ok.inj hs)
  exact (String.toList_inj.mp ht).symm

/-- Different texts in the place of keys are written differently. -/
theorem nodup_keyDraft {es : Entries Datum} (h : es.Fields) : (es.keys.map keyDraft).Nodup := by
  induction es with
  | nil => exact List.nodup_nil
  | cons e es ih =>
    obtain ⟨k, d⟩ := e
    obtain ⟨⟨s, rfl, hnew⟩, hes⟩ := Entries.fields_cons.mp h
    refine List.nodup_cons.mpr ⟨fun hmem => ?_, ih hes⟩
    obtain ⟨k, hk, he⟩ := List.mem_map.mp hmem
    obtain ⟨t, rfl⟩ := hes.1 k hk
    have hst : t = s := textChars_injective (congrArg Draft.written he)
    exact hnew (hst ▸ hk)

/-- All mappings in a regular datum have different texts for keys. -/
theorem Regular.fields {d : Datum} (hd : Regular d) {fixed : Bool} {es : Entries Datum}
    (hx : Datum.Within (.mapping fixed es) d) : es.Fields := by
  induction hd with
  | scalar => cases Datum.within_atom.mp hx
  | list _ ih =>
    rcases Datum.within_sequence.mp hx with he | ⟨d, hd, hx⟩
    · cases he
    · exact ih d hd hx
  | mapping hes _ ih =>
    rcases Datum.within_mapping.mp hx with he | ⟨e, he, hx⟩
    · cases he
      exact hes
    · exact ih e he hx

/-- A draft that stops at most at an integer with too many digits. -/
def Unstopped (d : Draft) : Prop := d.fault = none ∨ d.fault = some .longNumeral

theorem unstopped_ofChars (cs : List Char) : Unstopped (.ofChars cs) := .inl rfl

theorem Unstopped.append {a b : Draft} (ha : Unstopped a) (hb : Unstopped b) :
    Unstopped (a ++ b) := by
  obtain ⟨cs, fault⟩ := a
  cases fault with
  | none => exact hb
  | some fault => exact ha

private theorem unstopped_leadDraft (before : List Char) (d : Datum) :
    Unstopped (leadDraft before d) := by
  rcases leadDraft_cases before d with hlead | ⟨hlead, -⟩
  · exact .inl (congrArg Draft.fault hlead)
  · exact .inr (congrArg Draft.fault hlead)

private theorem unstopped_scalarDraft (s : Scalar) : Unstopped (scalarDraft s) := by
  unfold scalarDraft
  split
  · exact .inr rfl
  · exact .inl rfl

variable {layout : Layout}

private theorem unstopped_itemsDraft {items : List Datum}
    (h : ∀ d ∈ items, ∀ depth, Unstopped (draft layout depth d)) (depth : Nat) :
    Unstopped (itemsDraft layout depth items) := by
  induction items with
  | nil => exact unstopped_ofChars _
  | cons d ds ih =>
    obtain ⟨hd, hds⟩ := List.forall_mem_cons.mp h
    exact ((unstopped_leadDraft _ _).append (hd _)).append (ih hds)

private theorem unstopped_entriesDraft {es : Entries Datum} (hkeys : ∀ k ∈ es.keys, ∃ s, k = .text s)
    (h : ∀ e ∈ es, ∀ depth, Unstopped (draft layout depth e.2)) (depth : Nat) :
    Unstopped (entriesDraft layout depth es) := by
  induction es with
  | nil => exact unstopped_ofChars _
  | cons e es ih =>
    obtain ⟨k, d⟩ := e
    obtain ⟨hd, hes⟩ := List.forall_mem_cons.mp h
    obtain ⟨⟨s, rfl⟩, hrest⟩ := List.forall_mem_cons.mp hkeys
    have hkey : Unstopped (.ofChars (layout.comma (depth + 1)) ++ keyDraft (.text s)) :=
      (unstopped_ofChars _).append (unstopped_ofChars _)
    exact ((hkey.append (unstopped_ofChars _)).append (hd _)).append (ih hrest hes)

/-- A regular datum is written to the end, or up to an integer with too many digits. -/
theorem Regular.unstopped_draft {d : Datum} (hd : Regular d) (depth : Nat) :
    Unstopped (draft layout depth d) := by
  induction hd generalizing depth with
  | scalar => exact unstopped_scalarDraft _
  | @list items _ ih =>
    cases items with
    | nil => exact unstopped_ofChars _
    | cons d ds =>
      obtain ⟨hd, hds⟩ := List.forall_mem_cons.mp ih
      exact ((unstopped_leadDraft _ _).append (hd _)).append (unstopped_itemsDraft hds depth)
  | @mapping es hes _ ih =>
    cases es with
    | nil => exact unstopped_ofChars _
    | cons e es =>
      obtain ⟨k, d⟩ := e
      obtain ⟨hd, hrest⟩ := List.forall_mem_cons.mp ih
      obtain ⟨⟨s, rfl⟩, htexts⟩ := List.forall_mem_cons.mp hes.texts
      have hkey : Unstopped (.ofChars ('\x7b' :: layout.break (depth + 1)) ++ keyDraft (.text s)) :=
        (unstopped_ofChars _).append (unstopped_ofChars _)
      exact ((hkey.append (unstopped_ofChars _)).append (hd _)).append
        (unstopped_entriesDraft htexts hrest depth)

/-- A regular datum has a JSON text, unless an integer in it has too many digits. -/
theorem Regular.print {d : Datum} (hd : Regular d) (layout : Layout) :
    (∃ text, Json.print layout d = .ok text) ∨ Json.print layout d = .error .longNumeral := by
  have hdraft : Unstopped (draft layout 0 d) := hd.unstopped_draft 0
  rw [Json.print, Draft.result]
  rcases hdraft with hnone | hlong
  · rw [hnone]
    exact .inl ⟨_, rfl⟩
  · rw [hlong]
    exact .inr rfl

end Json

namespace Placed

variable {placed : List Placed} {Q : Datum → Prop}

/-- What holds of the levels of a section and of everything in bodies holds of everything in it. -/
private theorem everywhere_sectionOf (list : ∀ items, Q (.list items))
    (ids : ∀ own : List Placed, (∀ p ∈ own, p ∈ placed) →
      Q (.mapping false (own.map fun p => (.text p.id, p.body)))) (kind : BlockKind)
    (types : kind ≠ .output → ∀ value : Option String → Datum,
      Q (.mapping false ((types (placed.filter fun p => p.kind == kind)).map fun t =>
        (Key.ofText? t, value t))))
    (bodies : ∀ p ∈ placed, p.body.Everywhere Q) : (sectionOf kind placed).Everywhere Q := by
  have hids (own : List Placed) (hown : ∀ p ∈ own, p ∈ placed) :
      Datum.Everywhere Q (.mapping false (own.map fun p => (.text p.id, p.body))) := by
    refine Datum.everywhere_mapping.mpr ⟨ids own hown, fun e he => ?_⟩
    obtain ⟨p, hp, rfl⟩ := List.mem_map.mp he
    exact bodies p (hown p hp)
  cases kind with
  | output => exact hids _ fun p hp => List.mem_of_mem_filter hp
  | provider =>
    refine Datum.everywhere_mapping.mpr ⟨types (by decide) _, fun e he => ?_⟩
    obtain ⟨t, -, rfl⟩ := List.mem_map.mp he
    refine Datum.everywhere_sequence.mpr ⟨list _, fun d hd => ?_⟩
    obtain ⟨p, hp, rfl⟩ := List.mem_map.mp hd
    exact bodies p (List.mem_of_mem_filter (List.mem_of_mem_filter hp))
  | resource | data =>
    refine Datum.everywhere_mapping.mpr ⟨types (by decide) _, fun e he => ?_⟩
    obtain ⟨t, -, rfl⟩ := List.mem_map.mp he
    exact hids _ fun p hp => List.mem_of_mem_filter (List.mem_of_mem_filter hp)

/-- What holds of every section holds of everything in them. -/
private theorem everywhere_sections (whole : Q (.mapping false (sections placed)))
    (empty : Q (.mapping false [])) (h : ∀ kind, (sectionOf kind placed).Everywhere Q) :
    Datum.Everywhere Q (.mapping false (sections placed)) := by
  have hfilled : ∀ e ∈ filled placed, e.2.Everywhere Q := by
    intro e he
    obtain ⟨kind, -, rfl⟩ := List.mem_map.mp he
    exact h kind
  refine Datum.everywhere_mapping.mpr ⟨whole, fun e he => ?_⟩
  rw [sections_eq, Document.withResources] at he
  split at he
  · exact hfilled e he
  · rcases List.mem_append.mp he with he | he
    · exact hfilled e he
    · obtain rfl := List.mem_singleton.mp he
      exact Datum.everywhere_mapping.mpr ⟨empty, by simp⟩

/-- Sections are kept under the names of kinds. -/
private theorem exists_key_of_mem_keys_sections {k : Key} (hk : k ∈ (sections placed).keys) :
    ∃ kind : BlockKind, k = kind.key := by
  have hfilled : ∀ e ∈ filled placed, ∃ kind : BlockKind, e.1 = kind.key := by
    intro e he
    obtain ⟨kind, -, rfl⟩ := List.mem_map.mp he
    exact ⟨kind, rfl⟩
  obtain ⟨e, he, rfl⟩ := List.mem_map.mp hk
  rw [sections_eq, Document.withResources] at he
  split at he
  · exact hfilled e he
  · rcases List.mem_append.mp he with he | he
    · exact hfilled e he
    · obtain rfl := List.mem_singleton.mp he
      exact ⟨.resource, rfl⟩

/-- The body of a block stands in the section of its kind. -/
private theorem within_sectionOf {p : Placed} (hp : p ∈ placed) :
    Datum.Within p.body (sectionOf p.kind placed) := by
  have hown : p ∈ placed.filter fun q => q.kind == p.kind := List.mem_filter.mpr ⟨hp, by simp⟩
  have htype : p.typeTag ∈ types (placed.filter fun q => q.kind == p.kind) :=
    List.mem_eraseDups.mpr (List.mem_map_of_mem hown)
  have hof : p ∈ (placed.filter fun q => q.kind == p.kind).filter fun q =>
      q.typeTag == p.typeTag := List.mem_filter.mpr ⟨hown, by simp⟩
  unfold sectionOf
  split
  · next hk => exact .entry (List.mem_map_of_mem hown) (.refl _)
  · next hk =>
    refine .entry (List.mem_map_of_mem htype) (.item (List.mem_map_of_mem hof) (.refl _))
  · next hk =>
    refine .entry (List.mem_map_of_mem htype) (.entry (List.mem_map_of_mem hof) (.refl _))
  · next hk =>
    refine .entry (List.mem_map_of_mem htype) (.entry (List.mem_map_of_mem hof) (.refl _))

/-- The sections that typed blocks with regular bodies make up are regular. -/
theorem regular_sections (hregular : ∀ p ∈ placed, Json.Regular p.body)
    (hfree : placed.Pairwise fun q p => p.clashes q = false)
    (htyped : ∀ p ∈ placed, p.kind ≠ .output → p.typeTag ≠ none) :
    Json.Regular (.mapping false (sections placed)) := by
  obtain ⟨hfields, hsections⟩ := regular_filled hregular hfree htyped
  rw [sections_eq, Document.withResources]
  split
  · exact .mapping hfields hsections
  · next hnone =>
    rw [Entries.has_eq_any_keys, List.any_eq_true] at hnone
    have hnew : ∀ k ∈ (filled placed).keys, BlockKind.resource.key.same k = false := fun k hk =>
      Bool.eq_false_iff.mpr fun hsame => hnone ⟨k, hk, hsame⟩
    rw [← Entries.set_of_new hnew]
    refine .mapping ⟨fun k hk => ?_, hfields.once.set _ _⟩ fun e he => ?_
    · rcases Entries.mem_keys_set hk with hk | rfl
      · exact hfields.texts k hk
      · exact ⟨BlockKind.resource.name, rfl⟩
    · rw [Entries.set_of_new hnew] at he
      rcases List.mem_append.mp he with he | he
      · exact hsections e he
      · obtain rfl := List.mem_singleton.mp he
        exact .mapping ⟨by simp [Entries.keys], List.nodup_nil⟩ (by simp)

end Placed

/-- The blocks of a document are its sections, fixed. -/
theorem Document.mapping_blocks_of (name : String) (blocks metadata : Entries Datum) :
    Datum.mapping true (Document.of name blocks metadata).blocks =
      (Datum.mapping false blocks).freeze := by
  rw [Datum.freeze, Datum.withFixed, Datum.withFixedEntries_eq_map]
  rfl

theorem Datum.plain_withFixed {f : Bool} {d : Datum} : (d.withFixed f).Plain ↔ d.Plain := by
  cases d <;> exact .rfl

namespace Workspace

variable {w : Workspace} {stack : NodeId}

private theorem allNames_propertiesOf_iff {n : NodeId} :
    (w.propertiesOf n).AllKeys Key.AllNames ↔
      ∀ c es, w.heap.Reaches (w.node n).properties (.cell c) →
        w.heap.entries? c = some es → es.Named :=
  Heap.allKeys_datum_iff Key.allNames_nil

section Settled

variable {placed : List Placed} (hs : w.Settled stack (w.blockNodes stack) placed)
include hs

private theorem Settled.everywhere_plain :
    Datum.Everywhere Datum.Plain (.mapping false (Placed.sections placed)) := by
  refine Placed.everywhere_sections trivial trivial fun kind => ?_
  refine Placed.everywhere_sectionOf (fun _ => trivial) (fun _ _ => trivial) kind
    (fun _ _ => trivial) fun p hp => ?_
  rw [(hs.places p hp).body_eq]
  exact everywhere_plain_bodyOf
    (hs.resolvable p.node (hs.mem_nodes hp))

/-- The keys of a body are names if those of what it is made from are. -/
private theorem Settled.allNames_body_iff {p : Placed} (hp : p ∈ placed) :
    p.body.AllKeys Key.AllNames ↔ (w.propertiesOf p.node).AllKeys Key.AllNames := by
  rw [(hs.places p hp).body_eq, (relabels_bodyOf w).allKeys_iff]

/-- A typed block has a type that is not empty. -/
private theorem Settled.exists_typeTag (hw : Reached w) (htyped : w.AllTyped stack) {p : Placed}
    (hp : p ∈ placed) (houtput : p.kind ≠ .output) : ∃ s, p.typeTag = some s ∧ s ≠ "" := by
  have hplaces := hs.places p hp
  have hn : p.node ∈ w.blockNodes stack := hs.mem_nodes hp
  have hkind : (w.node p.node).kind ≠ .block .output := by
    rw [hplaces.kind_eq]
    simpa using houtput
  obtain ⟨s, htag⟩ := Option.ne_none_iff_exists'.mp (htyped p.node hn hkind)
  have hdeclared := (hw.wellDeclared (lt_size_of_mem_blockNodes hn)).tag s htag
  exact ⟨s, hplaces.typeTag_eq.trans htag, ne_empty_of_isIdentifier hdeclared⟩

/-- The sections of typed blocks with names for keys have names for keys. -/
private theorem Settled.allNames_sections (hw : Reached w) (htyped : w.AllTyped stack)
    (hnamed : w.AllNamed stack) :
    Datum.AllKeys Key.AllNames (.mapping false (Placed.sections placed)) := by
  refine Placed.everywhere_sections (fun k hk => ?_) Key.allNames_nil fun kind => ?_
  · obtain ⟨kind, rfl⟩ := Placed.exists_key_of_mem_keys_sections hk
    exact ⟨kind.name, rfl, by cases kind <;> decide⟩
  apply Placed.everywhere_sectionOf
  · exact fun _ => Key.allNames_nil
  · intro own hown k hk
    obtain ⟨e, he, rfl⟩ := List.mem_map.mp hk
    obtain ⟨p, hp, rfl⟩ := List.mem_map.mp he
    have hnode : p.node < w.nodes.size := lt_size_of_mem_blockNodes (hs.mem_nodes (hown p hp))
    refine ⟨p.id, rfl, ?_⟩
    rw [(hs.places p (hown p hp)).id_eq]
    exact hw.logicalId_ne_empty hnode
  · intro houtput value k hk
    obtain ⟨e, he, rfl⟩ := List.mem_map.mp hk
    obtain ⟨t, ht, rfl⟩ := List.mem_map.mp he
    obtain ⟨p, hp, rfl⟩ := List.mem_map.mp (List.mem_eraseDups.mp ht)
    obtain ⟨hp, hkind⟩ := List.mem_filter.mp hp
    obtain ⟨s, htag, hs'⟩ := hs.exists_typeTag hw htyped hp (beq_iff_eq.mp hkind ▸ houtput)
    rw [htag]
    exact ⟨s, rfl, hs'⟩
  · intro p hp
    exact (hs.allNames_body_iff hp).mpr
      (allNames_propertiesOf_iff.mpr (hnamed p.node (hs.mem_nodes hp)))

/-- Where the keys of the sections are texts of some kind, their blocks are typed and have such texts
for keys. -/
theorem Settled.typed_of_allKeys {Q : List Key → Prop} (hQ : ∀ ks, Q ks → Key.AllTexts ks)
    (h : Datum.AllKeys Q (.mapping false (Placed.sections placed))) :
    w.AllTyped stack ∧ ∀ n ∈ w.blockNodes stack, (w.propertiesOf n).AllKeys Q := by
  have hsection {p : Placed} (hp : p ∈ placed) : (Placed.sectionOf p.kind placed).AllKeys Q := by
    have hany : (placed.any fun q => q.kind == p.kind) = true :=
      List.any_eq_true.mpr ⟨p, hp, by simp⟩
    have hget : (Placed.sections placed).get? p.kind.key =
        some (Placed.sectionOf p.kind placed) := by rw [Placed.get?_sections, if_pos hany]
    exact (Datum.everywhere_mapping.mp h).2 _ (Entries.mem_of_get?_text hget)
  constructor
  · intro n hn hkind htag
    obtain ⟨p, hp, hplaces, rfl⟩ := hs.exists_places hn
    have houtput : p.kind ≠ .output := fun he => hkind (he ▸ hplaces.kind_eq)
    have hkey := Placed.mem_keys_sectionOf hp houtput
    rw [hplaces.typeTag_eq, htag] at hkey
    obtain ⟨s, hs⟩ := hQ _ (hsection hp _ (.refl _)) _ hkey
    cases hs
  · intro n hn
    obtain ⟨p, hp, hplaces, rfl⟩ := hs.exists_places hn
    rw [← w.relabels_bodyOf.allKeys_iff, ← hplaces.body_eq]
    exact fun x hx => hsection hp x (hx.trans (Placed.within_sectionOf hp))

/-- Where the sections have names for keys, their blocks are typed and have names for keys. -/
private theorem Settled.typed_of_allNames
    (h : Datum.AllKeys Key.AllNames (.mapping false (Placed.sections placed))) :
    w.AllTyped stack ∧ w.AllNamed stack := by
  obtain ⟨htyped, hnames⟩ := hs.typed_of_allKeys (fun _ h k hk => (h k hk).imp fun _ hs => hs.1) h
  exact ⟨htyped, fun n hn => allNames_propertiesOf_iff.mp (hnames n hn)⟩

end Settled

/-- All leaves of a document that a stack becomes are scalars that JSON has a form for. All its keys
are names exactly if the blocks are typed and have names for keys, as they have while the caller
leaves alone what nodes hold; the entries of each mapping then have different keys in the JSON text,
and that text is there unless an integer has too many digits. -/
theorem synthesize_serializable (hw : Reached w) {emit : Bool} {doc : Document}
    (h : (w.synthesize (.atom (.entity (.node stack true))) emit).2 = .ok doc) :
    (Datum.mapping true doc.blocks).Everywhere Datum.Plain ∧
      ((Datum.mapping true doc.blocks).AllKeys Key.AllNames ↔
        w.AllTyped stack ∧ w.AllNamed stack) ∧
      (Built w → w.AllNamed stack) ∧
      (w.AllTyped stack → w.AllNamed stack →
        (Datum.mapping true doc.blocks).AllKeys (fun ks => (ks.map Json.keyDraft).Nodup) ∧
          ∀ layout, (∃ text, doc.toJson layout = .ok text) ∨
            doc.toJson layout = .error .longNumeral) := by
  obtain ⟨placed, hs, rfl⟩ := synthesize_eq_ok h
  have hfixed := Datum.relabels_withFixed true
  rw [Document.mapping_blocks_of, Datum.freeze, hfixed.everywhere_iff]
  simp only [hfixed.allKeys_iff, Datum.plain_withFixed]
  refine ⟨hs.everywhere_plain, ⟨hs.typed_of_allNames, fun hnames => ?_⟩,
    fun hb => hb.allNamed stack, fun htyped hnamed => ?_⟩
  · exact hs.allNames_sections hw hnames.1 hnames.2
  have hregular := hs.regular hw.stored hnamed
  constructor
  · have hsections := Placed.regular_sections hregular hs.free (hs.typed htyped)
    intro x hx
    cases x with
    | mapping fixed es => exact Json.nodup_keyDraft (hsections.fields hx)
    | _ => exact List.nodup_nil
  · exact (Document.regular_toDatum (hs.shaped hw.stored) hregular hs.free (hs.typed htyped) _
      emit).print

/-- The document of a network and its subnet has names for keys at every depth. -/
theorem synthesize_serializable_network : ∃ doc,
    ((run {} networkCalls).synthesize (.atom (.entity (.node 0 true))) true).2 = .ok doc ∧
      (Datum.mapping true doc.blocks).AllKeys Key.AllNames := by
  have hw : Built (run {} networkCalls) := Built.start.run (by decide +kernel) (by decide +kernel)
  have hok : ((run {} networkCalls).synthesize (.atom (.entity (.node 0 true))) true).2.isOk =
      true := by decide +kernel
  have htyped : (run {} networkCalls).AllTyped 0 := by decide +kernel
  cases h : ((run {} networkCalls).synthesize (.atom (.entity (.node 0 true))) true).2 with
  | error e =>
    rw [h] at hok
    cases hok
  | ok doc =>
    obtain ⟨-, hnames, hnamed, -⟩ := synthesize_serializable hw.reached h
    exact ⟨doc, rfl, hnames.mpr ⟨htyped, hnamed hw⟩⟩

/-- Requests that declare a network with tags and then set tags under an integer and under its
text. -/
def retaggedCalls : List Call :=
  [.createApp "", .createStack 0 (.text "stack"), .keep (.mapping []),
    .keep (.mapping [(.text "tags", .cell 1)]),
    .addBlock 0 .resource (.text "vpc") (.text "main") (.cell 2),
    .put 1 (.scalar (.int 1)) (.text "a"), .put 1 (.text "1") (.text "b")]

/-- The network becomes a document although not all keys in it are names, and two different ones are
written alike. -/
theorem synthesize_retagged : ∃ doc, Reached (run {} retaggedCalls) ∧
    ((run {} retaggedCalls).synthesize (.atom (.entity (.node 0 true))) true).2 = .ok doc ∧
      ¬ (Datum.mapping true doc.blocks).AllKeys Key.AllNames ∧
      ¬ (Datum.mapping true doc.blocks).AllKeys (fun ks => (ks.map Json.keyDraft).Nodup) := by
  have hw : Reached (run {} retaggedCalls) := Reached.start.run (by decide +kernel)
  have hrun : (((run {} retaggedCalls).synthesize
      (.atom (.entity (.node 0 true))) true).2.toOption.bind fun doc =>
        ["resource", "vpc", "main", "tags"].foldlM Datum.field? (.mapping true doc.blocks)).map
          (fun tags => (tags.keys.map Key.text?, tags.keys.map Json.keyDraft)) =
      some ([none, some "1"], [Json.keyDraft (.text "1"), Json.keyDraft (.text "1")]) := by
    decide +kernel
  obtain ⟨tags, htags, hkeys⟩ := Option.map_eq_some_iff.mp hrun
  obtain ⟨doc, hdoc, htags⟩ := Option.bind_eq_some_iff.mp htags
  obtain ⟨htexts, hdrafts⟩ := Prod.mk.inj hkeys
  have hx := Datum.within_of_fields htags
  refine ⟨doc, hw, toOption_eq_some.mp hdoc, fun hall => ?_, fun hall => ?_⟩
  · have hnames : Key.AllNames tags.keys := hall tags hx
    have hnone : none ∈ tags.keys.map Key.text? := htexts ▸ List.mem_cons_self
    obtain ⟨k, hk, hno⟩ := List.mem_map.mp hnone
    obtain ⟨s, rfl, -⟩ := hnames k hk
    cases hno
  · have honce : (tags.keys.map Json.keyDraft).Nodup := hall tags hx
    rw [hdrafts] at honce
    simp at honce

end Workspace

end Groundplan
