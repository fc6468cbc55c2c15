import Groundplan.Proofs.CommandLine.Running
import Groundplan.Proofs.Document.Agreement
import Groundplan.Proofs.Json.Brackets
import Groundplan.Proofs.Synthesis.Rewording

/-!
# Loading loses nothing

A document is loaded from what JSON texts hold, given as it is or as text, exactly if that has the
shape of a document; whatever else is given is a fault of the document. What is loaded has
everything that was given but the empty entries at the top, and what is loaded from that again has
the same name and metadata and gives the same answers. Loading stops for no other reason than these:
a name for the stack with too many digits, a text that nests its brackets deeper than there is room
to read, and a document that is deeper than there is room to freeze.
-/

namespace Groundplan

namespace Json

/-- What JSON texts hold: lists, open mappings of fields, and scalars. -/
inductive Held : Datum → Prop
  | scalar (s : Scalar) : Held (.scalar s)
  | list {items : List Datum} (h : ∀ d ∈ items, Held d) : Held (.list items)
  | mapping {es : Entries Datum} (hes : es.Fields) (h : ∀ e ∈ es, Held e.2) :
      Held (.mapping false es)

/-- What was read is held. -/
theorem held_of_given {n : Nat} {d : Datum} (h : d.Everywhere (Given n)) : Held d := by
  induction d using Datum.induction with
  | atom a =>
    cases a with
    | scalar s => exact .scalar s
    | _ => exact (h _ (.refl _)).elim
  | loop c => exact (h _ (.refl _)).elim
  | sequence fixed items ih =>
    cases fixed with
    | false => exact .list fun d hd => ih d hd (h.part (.item hd (.refl _)))
    | true => exact (h _ (.refl _)).elim
  | mapping fixed es ih =>
    cases fixed with
    | false =>
      have hself : Given n (.mapping false es) := h _ (.refl _)
      exact .mapping hself.1 fun e he => ih e he (h.part (.entry he (.refl _)))
    | true => exact (h _ (.refl _)).elim

/-- No integer in what was read has too many digits. -/
theorem hasLong_of_given {n : Nat} {d : Datum} (h : d.Everywhere (Given n)) : hasLong d = false := by
  induction d using Datum.induction with
  | atom a =>
    cases a with
    | scalar s => exact h _ (.refl _)
    | _ => exact (h _ (.refl _)).elim
  | loop c => exact (h _ (.refl _)).elim
  | sequence fixed items ih =>
    have hitems {items : List Datum} (h : ∀ d ∈ items, hasLong d = false) :
        itemsHaveLong items = false := by
      induction items with
      | nil => rfl
      | cons d ds ih =>
        obtain ⟨hd, hds⟩ := List.forall_mem_cons.mp h
        rw [itemsHaveLong, hd, ih hds, Bool.or_self]
    exact hitems fun d hd => ih d hd (h.part (.item hd (.refl _)))
  | mapping fixed es ih =>
    have hentries {es : Entries Datum} (hes : es.Fields) (h : ∀ e ∈ es, hasLong e.2 = false) :
        entriesHaveLong es = false := by
      induction es with
      | nil => rfl
      | cons e es ih =>
        obtain ⟨⟨s, hk, -⟩, hfields⟩ := Entries.fields_cons.mp hes
        obtain ⟨hd, hrest⟩ := List.forall_mem_cons.mp h
        obtain ⟨k, d⟩ := e
        cases hk
        rw [entriesHaveLong, hd, ih hfields hrest]
        rfl
    cases fixed with
    | false =>
      have hself : Given n (.mapping false es) := h _ (.refl _)
      exact hentries hself.1 fun e he => ih e he (h.part (.entry he (.refl _)))
    | true => exact (h _ (.refl _)).elim

namespace Held

variable {d : Datum} {es : Entries Datum}

/-- The entries of a mapping that is held. -/
theorem entries (h : Held (.mapping false es)) : es.Fields ∧ ∀ e ∈ es, Held e.2 := by
  cases h with
  | mapping hes h => exact ⟨hes, h⟩

/-- A mapping that is held is open. -/
theorem eq_mapping (h : Held d) (hes : d.entries? = some es) : d = .mapping false es := by
  cases h with
  | mapping => cases hes; rfl
  | _ => cases hes

/-- What stands in what is held is held. -/
theorem part (h : Held d) {x : Datum} (hx : Datum.Within x d) : Held x := by
  induction hx with
  | refl => exact h
  | item hmem _ ih =>
    cases h with
    | list hitems => exact ih (hitems _ hmem)
  | entry hmem _ ih =>
    cases h with
    | mapping hes hentries => exact ih (hentries _ hmem)

/-- What is held is open throughout. -/
theorem withFixed_eq (h : Held d) : d.withFixed false = d := by
  induction h with
  | scalar _ => rfl
  | list _ ih => exact Datum.withFixed_sequence ih
  | mapping _ _ ih => exact Datum.withFixed_mapping ih

theorem thaw_freeze (h : Held d) : d.freeze.thaw = d := by
  rw [Datum.freeze, Datum.thaw, Datum.withFixed_withFixed, h.withFixed_eq]

private theorem exists_scalar (h : Held d) {a : Atom} (ha : Datum.Within (.atom a) d) :
    ∃ s, a = .scalar s := by
  induction h with
  | scalar _ =>
    cases Datum.within_atom.mp ha
    exact ⟨_, rfl⟩
  | list _ ih =>
    obtain ha | ⟨d, hd, ha⟩ := Datum.within_sequence.mp ha
    · cases ha
    · exact ih d hd ha
  | mapping _ _ ih =>
    obtain ha | ⟨e, he, ha⟩ := Datum.within_mapping.mp ha
    · cases ha
    · exact ih e he ha

private theorem allKeys_texts (h : Held d) : d.AllKeys fun ks => ∀ k ∈ ks, ∃ s, k = .text s := by
  induction h with
  | scalar _ =>
    intro x hx k hk
    cases Datum.within_atom.mp hx
    cases hk
  | list _ ih => exact Datum.everywhere_sequence.mpr ⟨nofun, ih⟩
  | mapping hes _ ih => exact Datum.everywhere_mapping.mpr ⟨hes.texts, ih⟩

/-- The text of what is held depends on no naming. -/
theorem plain_eq (h : Held d) (naming naming' : Naming) : d.plain naming = d.plain naming' := by
  have hdisplay : d.display naming = d.display naming' := by
    refine Datum.display_congr (fun _ ha => h.exists_scalar ha) fun x hx k hk => ?_
    obtain ⟨s, rfl⟩ := h.allKeys_texts x hx k hk
    rfl
  unfold Datum.plain
  split
  · rfl
  · exact hdisplay

end Held

end Json

namespace Document

open Json (Held)

variable {es : Entries Datum}

/-- Bytes, or something that JSON texts hold, a text among them. -/
def Presentable (d : Datum) : Prop := Held d ∨ ∃ bytes, d = .atom (.bytes bytes)

section Given

variable {room : Room} {d x : Datum}

/-- What is given is held, if it was presentable. -/
private theorem held_of_given (hd : Presentable d) (h : given room d = .ok x) : Held x := by
  unfold given at h
  split at h
  · exact Json.held_of_given (Json.everywhere_given_of_readWithin h)
  · obtain ⟨n, hgiven⟩ := Json.exists_given_of_readBytesWithin h
    exact Json.held_of_given hgiven
  · next hbytes =>
    cases h
    rcases hd with hd | ⟨bytes, rfl⟩
    · exact hd
    · exact absurd rfl (hbytes bytes)

/-- How many brackets and braces open in the text that is given, if it is one or bytes of one. -/
def bracketsIn : Datum → Nat
  | .atom (.scalar (.text s)) => Json.brackets s.toList
  | .atom (.bytes bytes) => ((Text.ofUnknown bytes).toOption.map fun s => Json.brackets s.toList).getD 0
  | _ => 0

/-- Only what opens more brackets than there is room for is not read for want of room. -/
private theorem lt_bracketsIn {cause : Breakdown} (h : given room d = .error (.breakdown cause)) :
    ∃ n, room = some n ∧ n < bracketsIn d := by
  unfold given at h
  split at h
  · next s =>
    rcases Json.readWithin_cases room s with ⟨hread, hintact⟩ | ⟨_, n, -, hroom, hn⟩
    · exact absurd (hread.symm.trans h) (hintact cause)
    · exact ⟨n, hroom, hn⟩
  · next bytes =>
    rcases Json.readBytesWithin_cases room bytes with ⟨hread, hintact⟩ | ⟨s, _, n, hs, -, hroom, hn⟩
    · exact absurd (hread.symm.trans h) (hintact cause)
    · refine ⟨n, hroom, ?_⟩
      rw [bracketsIn, hs]
      exact hn
  · cases h

end Given

/-- The name that a mapping has for its stack stands in it. -/
private theorem within_nameIn? {fixed : Bool} {d : Datum} (h : nameIn? (metadataIn es) = some d) :
    Datum.Within d (.mapping fixed es) := by
  have hwithin {fixed : Bool} {es : Entries Datum} {k : Key} {d : Datum} (h : es.get? k = some d) :
      Datum.Within d (.mapping fixed es) := by
    obtain ⟨l, hmem, -⟩ := Entries.exists_mem_of_get? h
    exact .entry hmem (.refl _)
  unfold nameIn? at h
  split at h
  · next hinner =>
    rw [metadataIn] at hinner
    cases hd : es.get? metadataKey with
    | none =>
      rw [hd] at hinner
      cases hinner
    | some top =>
      rw [hd, Option.getD_some] at hinner
      cases top with
      | mapping f metadata => exact ((hwithin h).trans (hwithin hinner)).trans (hwithin hd)
      | _ => cases hinner
  · cases h

/-- A mapping that is given has a name with too many digits only if it is given as it is. -/
private theorem hasLongName_of_given {room : Room} {d : Datum}
    (h : given room d = .ok (.mapping false es)) : hasLongName (.mapping false es) = hasLongName d := by
  have hread {n : Nat} (hgiven : Datum.Everywhere (Json.Given n) (.mapping false es)) :
      hasLongName (.mapping false es) = false := by
    show ((nameIn? (metadataIn es)).map Json.hasLong).getD false = false
    cases hd : nameIn? (metadataIn es) with
    | none => rfl
    | some x => exact Json.hasLong_of_given (hgiven.part (within_nameIn? hd))
  unfold given at h
  split at h
  · rw [hread (Json.everywhere_given_of_readWithin h)]
    rfl
  · obtain ⟨n, hgiven⟩ := Json.exists_given_of_readBytesWithin h
    rw [hread hgiven]
    rfl
  · cases h
    rfl

section Top

variable (hes : Held (.mapping false es))
include hes

private theorem held_of_get? {k : Key} {d : Datum} (hd : es.get? k = some d) : Held d := by
  obtain ⟨l, hmem, -⟩ := Entries.exists_mem_of_get? hd
  exact hes.entries.2 _ hmem

/-- The metadata of what is held is held. -/
private theorem held_metadataIn : Held (.mapping false (metadataIn es)) := by
  rw [metadataIn]
  cases hd : es.get? metadataKey with
  | none => exact .mapping Entries.fields_nil (List.forall_mem_nil _)
  | some d =>
    have hheld := held_of_get? hes hd
    cases hentries : d.entries? with
    | none =>
      rw [Option.getD_some, Datum.entries, hentries]
      exact .mapping Entries.fields_nil (List.forall_mem_nil _)
    | some inner =>
      rw [Option.getD_some, Datum.entries, hentries]
      rwa [hheld.eq_mapping hentries] at hheld

end Top

/-! ### What a loaded document has -/

/-- The keys that may stand at the top, in the order of a document's datum. -/
private def topKeys : List Key := metadataKey :: BlockKind.all.map BlockKind.key

/-- The entries at the top that hold anything, in the order of a document's datum. -/
private def filledTop (es : Entries Datum) : Entries Datum :=
  topKeys.filterMap fun k => ((es.get? k).filter Datum.isTruthy).map fun d => (k, d)

private theorem isTruthy_freeze (d : Datum) : d.freeze.isTruthy = d.isTruthy := by
  cases d <;> simp [Datum.freeze, Datum.withFixed, Datum.isTruthy]

private theorem metadata_loaded (hes : Held (.mapping false es)) (naming : Naming) :
    (loaded naming es).metadata.mapValues Datum.thaw = metadataIn es := by
  have hheld := (held_metadataIn hes).entries.2
  show Entries.mapValues Datum.thaw (Entries.mapValues Datum.freeze (metadataIn es)) = metadataIn es
  rw [Entries.mapValues, Entries.mapValues, List.map_map]
  refine (List.map_congr_left fun e he => ?_).trans (List.map_id _)
  exact Prod.ext rfl (hheld e he).thaw_freeze

private theorem header_loaded (hes : Held (.mapping false es)) (hshape : Shape es)
    (naming : Naming) :
    (if (loaded naming es).metadata.isEmpty then [] else
        [(metadataKey, Datum.mapping false ((loaded naming es).metadata.mapValues Datum.thaw))]) =
      (((es.get? metadataKey).filter Datum.isTruthy).map fun d => (metadataKey, d)).toList := by
  have hempty : (loaded naming es).metadata.isEmpty = (metadataIn es).isEmpty := by
    show (Entries.mapValues Datum.freeze (metadataIn es)).isEmpty = _
    simp [Entries.mapValues]
  rw [metadata_loaded hes, hempty]
  cases hd : es.get? metadataKey with
  | none => simp [metadataIn, hd, Datum.entries, Datum.entries?]
  | some d =>
    obtain ⟨inner, hinner⟩ := hshape.metadata d hd
    have heq := (held_of_get? hes hd).eq_mapping hinner
    subst heq
    have hmetadata : metadataIn es = inner := by
      rw [metadataIn, hd]
      rfl
    rw [hmetadata]
    cases inner <;> rfl

private theorem filledSections_loaded (hes : Held (.mapping false es)) (naming : Naming) :
    (loaded naming es).filledSections = (BlockKind.all.map BlockKind.key).filterMap
      fun k => ((es.get? k).filter Datum.isTruthy).map fun d => (k, d) := by
  rw [filledSections, List.filterMap_map]
  refine List.filterMap_congr fun kind _ => ?_
  rw [section?_loaded]
  dsimp only [Function.comp_apply]
  cases hd : es.get? kind.key with
  | none => cases kind <;> rfl
  | some d =>
    rw [Option.some_or, Option.map_some]
    dsimp only
    rw [isTruthy_freeze, (held_of_get? hes hd).thaw_freeze, Option.filter_some]
    split <;> rfl

/-- The datum of a loaded document has the entries at the top that hold anything. -/
private theorem toDatum_loaded (hes : Held (.mapping false es)) (hshape : Shape es)
    (naming : Naming) : (loaded naming es).toDatum = .mapping false (filledTop es) := by
  rw [toDatum, header_loaded hes hshape, filledSections_loaded hes, filledTop, topKeys,
    List.filterMap_cons]
  congr 1
  cases (es.get? metadataKey).filter Datum.isTruthy <;> rfl

private theorem nodup_topKeys : topKeys.Nodup := by
  simp [topKeys, metadataKey, BlockKind.all, BlockKind.name]

private theorem mem_topKeys {k : Key} :
    k ∈ topKeys ↔ k = metadataKey ∨ ∃ kind : BlockKind, k = kind.key := by
  simp [topKeys, BlockKind.mem_all, eq_comm]

private theorem mem_filledTop (hes : es.Fields) (hshape : Shape es) {e : Key × Datum} :
    e ∈ filledTop es ↔ e ∈ es ∧ e.2.isTruthy = true := by
  simp only [filledTop, List.mem_filterMap, Option.map_eq_some_iff, Option.filter_eq_some_iff]
  constructor
  · rintro ⟨k, -, d, ⟨hd, htruthy⟩, rfl⟩
    exact ⟨hes.get?_eq_some.mp hd, htruthy⟩
  · rintro ⟨he, htruthy⟩
    have hk := mem_topKeys.mpr (hshape.topLevel e.1 (List.mem_map_of_mem he))
    exact ⟨e.1, hk, e.2, ⟨hes.get?_of_mem he, htruthy⟩, rfl⟩

/-- What holds anything at the top is what is given without its empty entries at the top. -/
private theorem perm_filledTop (hes : es.Fields) (hshape : Shape es) :
    (filledTop es).Perm (es.filter fun e => e.2.isTruthy) := by
  -- Neither list has an entry twice, so they need only have the same entries.
  have hfilled : (filledTop es).Nodup := by
    refine nodup_topKeys.filterMap fun k k' e he he' => ?_
    obtain ⟨_, -, rfl⟩ := Option.map_eq_some_iff.mp he
    obtain ⟨_, -, he'⟩ := Option.map_eq_some_iff.mp he'
    exact (congrArg Prod.fst he').symm
  have hfilter : (es.filter fun e => e.2.isTruthy).Nodup :=
    (List.Nodup.of_map _ hes.nodup_keys).filter _
  refine (List.perm_ext_iff_of_nodup hfilled hfilter).mpr fun e => ?_
  rw [mem_filledTop hes hshape, List.mem_filter]

/-! ### What is loaded again -/

/-- Two documents of one name and metadata of which everything that can be asked has one answer. -/
structure SameAnswers (a b : Document) : Prop where
  stackName : a.stackName = b.stackName
  metadata : a.metadata = b.metadata
  hasType : ∀ kind type, a.hasType kind type = b.hasType kind type
  hasTypeWith : ∀ kind type predicate,
    a.hasTypeWith kind type predicate = b.hasTypeWith kind type predicate
  count : ∀ kind type, a.count kind type = b.count kind type
  findResources : ∀ type predicate, a.findResources type predicate = b.findResources type predicate
  resourceTypes : a.resourceTypes = b.resourceTypes
  summary : a.summary = b.summary
  isEmpty : a.isEmpty = b.isEmpty

/-- Documents answer alike if they have the same entries in their sections. -/
private theorem sameAnswers_of_entriesOf {a b : Document} (hname : a.stackName = b.stackName)
    (hmetadata : a.metadata = b.metadata) (hentries : ∀ kind, a.entriesOf kind = b.entriesOf kind)
    (hsections : ∀ kind, a.hasSection kind = b.hasSection kind) : SameAnswers a b := by
  have hof (kind : BlockKind) (type : Datum) : a.ofType? kind type = b.ofType? kind type := by
    rw [ofType?, ofType?, hentries]
  have hbodies (kind : BlockKind) (type : Datum) : a.bodies kind type = b.bodies kind type := by
    rw [bodies, bodies, hof]
  refine ⟨hname, hmetadata, fun kind type => ?_, fun kind type predicate => ?_, fun kind type => ?_,
    fun type predicate => ?_, ?_, ?_, ?_⟩
  · rw [hasType, hasType, hof]
  · rw [hasTypeWith, hasTypeWith, hbodies]
  · rw [count, count, hbodies]
  · unfold findResources
    rw [hof]
  · rw [resourceTypes, resourceTypes, hentries]
  · rw [summary, summary, hname, funext hsections, funext hentries]
  · rw [isEmpty, isEmpty, funext hsections]

private theorem fields_filledTop (hes : es.Fields) (hshape : Shape es) : (filledTop es).Fields :=
  (hes.sublist List.filter_sublist).perm (perm_filledTop hes hshape)

private theorem get?_filledTop (hes : es.Fields) (hshape : Shape es) (k : Key) :
    (filledTop es).get? k = (es.get? k).filter Datum.isTruthy := by
  ext d
  rw [(fields_filledTop hes hshape).get?_eq_some, mem_filledTop hes hshape,
    Option.filter_eq_some_iff, hes.get?_eq_some]

private theorem shape_filledTop (hes : es.Fields) (hshape : Shape es) : Shape (filledTop es) where
  topLevel k hk := by
    obtain ⟨e, he, rfl⟩ := List.mem_map.mp hk
    exact hshape.topLevel e.1 (List.mem_map_of_mem ((mem_filledTop hes hshape).mp he).1)
  metadata d hd := by
    rw [get?_filledTop hes hshape, Option.filter_eq_some_iff] at hd
    exact hshape.metadata d hd.1
  sections kind d hd := by
    rw [get?_filledTop hes hshape, Option.filter_eq_some_iff] at hd
    exact hshape.sections kind d hd.1

/-- Only an empty mapping is not truthy. -/
private theorem eq_nil_of_not_isTruthy {d : Datum} {inner : Entries Datum}
    (hd : d.entries? = some inner) (h : d.isTruthy ≠ true) : inner = [] := by
  cases d with
  | mapping fixed inner =>
    cases hd
    simpa [Datum.isTruthy] using h
  | _ => cases hd

private theorem metadataIn_filledTop (hes : es.Fields) (hshape : Shape es) :
    metadataIn (filledTop es) = metadataIn es := by
  rw [metadataIn, metadataIn, get?_filledTop hes hshape]
  cases hd : es.get? metadataKey with
  | none => rfl
  | some d =>
    rw [Option.filter_some]
    split
    · rfl
    · next h =>
      obtain ⟨inner, hinner⟩ := hshape.metadata d hd
      rw [Option.getD_none, Option.getD_some]
      simp only [Datum.entries, hinner, eq_nil_of_not_isTruthy hinner h]
      rfl

private theorem stackNameOf_eq (hes : Held (.mapping false es)) (naming naming' : Naming) :
    stackNameOf naming (metadataIn es) = stackNameOf naming' (metadataIn es) := by
  rw [stackNameOf, stackNameOf]
  cases hd : nameIn? (metadataIn es) with
  | none => rfl
  | some d => exact (hes.part (within_nameIn? hd)).plain_eq naming naming'

private theorem entriesOf_loaded (naming : Naming) (kind : BlockKind) :
    (loaded naming es).entriesOf kind =
      ((es.get? kind.key).map fun d => d.freeze.entries).getD [] := by
  rw [entriesOf, section?_loaded]
  cases es.get? kind.key with
  | none => cases kind <;> rfl
  | some d => rfl

private theorem hasSection_loaded (naming : Naming) (kind : BlockKind) :
    (loaded naming es).hasSection kind = ((es.get? kind.key).map Datum.isTruthy).getD false := by
  rw [hasSection, section?_loaded]
  cases es.get? kind.key with
  | none => cases kind <;> rfl
  | some d => exact isTruthy_freeze d

/-- What is loaded again from the entries that hold anything gives the same answers. -/
private theorem sameAnswers_filledTop (hes : Held (.mapping false es)) (hshape : Shape es)
    (naming naming' : Naming) :
    SameAnswers (loaded naming es) (loaded naming' (filledTop es)) := by
  have hmetadata := metadataIn_filledTop hes.entries.1 hshape
  have hget (kind : BlockKind) := get?_filledTop hes.entries.1 hshape kind.key
  refine sameAnswers_of_entriesOf ?_ ?_ (fun kind => ?_) fun kind => ?_
  · show stackNameOf _ _ = stackNameOf _ _
    rw [hmetadata, stackNameOf_eq hes]
  · show Entries.mapValues _ _ = Entries.mapValues _ _
    rw [hmetadata]
  · rw [entriesOf_loaded, entriesOf_loaded, hget]
    cases hd : es.get? kind.key with
    | none => rfl
    | some d =>
      rw [Option.filter_some]
      split
      · rfl
      · next h =>
        -- The section was left out since it is empty, and none has no entries either.
        obtain ⟨inner, hinner, -⟩ := hshape.sections kind d hd
        obtain rfl := eq_nil_of_not_isTruthy hinner h
        rw [(held_of_get? hes hd).eq_mapping hinner]
        rfl
  · rw [hasSection_loaded, hasSection_loaded, hget]
    cases es.get? kind.key with
    | none => rfl
    | some d =>
      rw [Option.filter_some]
      split
      · rfl
      · next h => simpa using h

/-! ### How deep a loaded document is -/

private theorem mem_sectionsIn {es : Entries Datum} {e : Key × Datum} :
    e ∈ sectionsIn es BlockKind.all ↔
      ∃ kind : BlockKind, es.get? kind.key = some e.2 ∧ e.1 = kind.key := by
  simp only [sectionsIn, List.mem_filterMap, Option.map_eq_some_iff]
  constructor
  · rintro ⟨kind, -, d, hd, rfl⟩
    exact ⟨kind, hd, rfl⟩
  · rintro ⟨kind, hd, hk⟩
    exact ⟨kind, kind.mem_all, e.2, hd, Prod.ext hk.symm rfl⟩

/-- Sections are as deep as the deepest of them, and there are always resources. -/
private theorem depth_withResources_le_iff (hshape : Shape es) {n : Nat} :
    Datum.depth (.mapping false (withResources (sectionsIn es BlockKind.all))) ≤ n + 1 ↔
      1 ≤ n ∧ ∀ (kind : BlockKind) (d : Datum), es.get? kind.key = some d → d.depth ≤ n := by
  have hsections : (∀ e ∈ sectionsIn es BlockKind.all, e.2.depth ≤ n) ↔
      ∀ (kind : BlockKind) (d : Datum), es.get? kind.key = some d → d.depth ≤ n :=
    ⟨fun h kind d hd => h (kind.key, d) (mem_sectionsIn.mpr ⟨kind, hd, rfl⟩),
      fun h e he => by
        obtain ⟨kind, hd, -⟩ := mem_sectionsIn.mp he
        exact h kind e.2 hd⟩
  rw [Datum.depth, Nat.succ_le_succ_iff, Datum.depthOfEntries_le_iff, ← hsections, withResources]
  split
  · next hresource =>
    refine (and_iff_right_of_imp fun h => ?_).symm
    have hget := get?_sectionsIn es .resource BlockKind.all
    rw [if_pos (BlockKind.mem_all _)] at hget
    rw [Entries.has_eq_isSome_get?, hget] at hresource
    obtain ⟨d, hd⟩ := Option.isSome_iff_exists.mp hresource
    obtain ⟨inner, hinner, -⟩ := hshape.sections .resource d hd
    have hle := hsections.mp h .resource d hd
    cases d with
    | mapping => exact Nat.le_trans (Nat.succ_le_succ (Nat.zero_le _)) hle
    | _ => cases hinner
  · rw [List.forall_mem_append, and_comm, List.forall_mem_singleton]
    rfl

/-- A document is as deep as its metadata and its sections make it, and it always has resources. -/
private theorem depth_loaded_le_iff (hshape : Shape es) {naming : Naming} {n : Nat} :
    (loaded naming es).depth ≤ n + 1 ↔
      (1 ≤ n ∧ ∀ (kind : BlockKind) (d : Datum), es.get? kind.key = some d → d.depth ≤ n) ∧
        Datum.depth (.mapping false (metadataIn es)) ≤ n + 1 := by
  have hfrozen (es : Entries Datum) : Datum.depth (.mapping true (es.mapValues Datum.freeze)) =
      Datum.depth (.mapping false es) := by
    have hdepth := (Datum.relabels_withFixed true).depth_eq (.mapping false es)
    rw [Datum.withFixed, Datum.withFixedEntries_eq_map] at hdepth
    exact hdepth
  rw [depth, Nat.max_le, ← depth_withResources_le_iff hshape, loaded, of, hfrozen, hfrozen]

/-- A document is no deeper than what it was loaded from, but that it always has resources. -/
private theorem depth_loaded_le (hshape : Shape es) (naming : Naming) :
    (loaded naming es).depth ≤ max 2 (Datum.depth (.mapping false es)) := by
  have hle {k : Key} {d : Datum} (hd : es.get? k = some d) : d.depth ≤ Datum.depthOfEntries es := by
    obtain ⟨l, hmem, -⟩ := Entries.exists_mem_of_get? hd
    exact Datum.depthOfEntries_le_iff.mp (Nat.le_refl _) _ hmem
  have hmetadata : Datum.depth (.mapping false (metadataIn es)) ≤
      max 2 (Datum.depthOfEntries es + 1) := by
    rw [metadataIn]
    cases hd : es.get? metadataKey with
    | none => exact Nat.le_trans (Nat.le_succ 1) (Nat.le_max_left _ _)
    | some d =>
      have hd := hle hd
      cases d with
      | mapping f inner => exact Nat.le_trans (Nat.le_succ_of_le hd) (Nat.le_max_right _ _)
      | _ => exact Nat.le_trans (Nat.le_succ 1) (Nat.le_max_left _ _)
  have hmax : max 2 (Datum.depthOfEntries es + 1) = max 1 (Datum.depthOfEntries es) + 1 := by omega
  rw [Datum.depth, hmax, depth_loaded_le_iff hshape, ← hmax]
  exact ⟨⟨Nat.le_max_left _ _, fun kind d hd => Nat.le_trans (hle hd) (Nat.le_max_right _ _)⟩,
    hmetadata⟩

/-- What is loaded again from the entries that hold anything is no deeper. -/
private theorem depth_filledTop_le (hes : es.Fields) (hshape : Shape es) (naming naming' : Naming) :
    (loaded naming' (filledTop es)).depth ≤ (loaded naming es).depth := by
  have hpos : (loaded naming es).depth ≠ 0 := by
    rw [depth, Datum.depth, Datum.depth]
    omega
  obtain ⟨n, hn⟩ := Nat.exists_eq_add_one_of_ne_zero hpos
  obtain ⟨⟨hone, hsections⟩, hmetadata⟩ := (depth_loaded_le_iff hshape).mp (Nat.le_of_eq hn)
  rw [hn, depth_loaded_le_iff (shape_filledTop hes hshape), metadataIn_filledTop hes hshape]
  refine ⟨⟨hone, fun kind d hd => ?_⟩, hmetadata⟩
  rw [get?_filledTop hes hshape, Option.filter_eq_some_iff] at hd
  exact hsections kind d hd.1

end Document

namespace Session

open Document

/-- A document has all that a mapping gives, but for what is empty at the top of it, and can be loaded
from its datum again with the same answers, where it could be loaded itself. -/
structure Keeps (doc : Document) (es : Entries Datum) : Prop where
  toDatum : ∃ left, doc.toDatum = .mapping false left ∧ left.Perm (es.filter fun e => e.2.isTruthy)
  reload : ∀ (limits : Limits), limits.freezing.allows doc.depth = true →
    ∀ (s : Session) (v : Value), s.workspace.heap.datum v = doc.toDatum →
      ∃ again, (goes (loadDocumentWithin limits v) s).1 = .ok again ∧ SameAnswers doc again

variable {s : Session} {v : Value} {limits : Limits} {es : Entries Datum}

/-- What has the shape of a document is loaded but for its name and for its depth. -/
private theorem goes_loadDocument_of_shape
    (h : given limits.reading (s.workspace.heap.datum v) = .ok (.mapping false es))
    (hshape : Shape es) :
    (goes (loadDocumentWithin limits v) s).1 =
      if hasLongName (s.workspace.heap.datum v) then .error (.json .longNumeral)
      else if limits.freezing.allows (loaded s.workspace.naming es).depth then
        .ok (loaded s.workspace.naming es)
      else .error (.ofBreakdown (.tooDeep .values)) := by
  have hload : loadWithin limits.reading s.workspace.naming (s.workspace.heap.datum v) =
      .ok (.ok (loaded s.workspace.naming es)) := by
    rw [loadWithin, h]
    exact congrArg Except.ok (ofEntries_eq_ok.mpr ⟨hshape, rfl⟩)
  rw [goes_loadDocumentWithin, hload]

private theorem keeps_loaded (hes : Json.Held (.mapping false es)) (hshape : Shape es)
    (hname : hasLongName (.mapping false es) = false) (naming : Naming) :
    Keeps (loaded naming es) es where
  toDatum := ⟨_, toDatum_loaded hes hshape naming, perm_filledTop hes.entries.1 hshape⟩
  reload := by
    intro limits hroom s v hv
    rw [toDatum_loaded hes hshape] at hv
    have hgiven : given limits.reading (s.workspace.heap.datum v) =
        .ok (.mapping false (filledTop es)) := by
      rw [hv]
      rfl
    have hagain : hasLongName (.mapping false (filledTop es)) = false := by
      show ((nameIn? (metadataIn (filledTop es))).map Json.hasLong).getD false = false
      rw [metadataIn_filledTop hes.entries.1 hshape]
      exact hname
    have hdepth : limits.freezing.allows (loaded s.workspace.naming (filledTop es)).depth = true :=
      Room.allows_iff.mpr fun n hn => Nat.le_trans
        (depth_filledTop_le hes.entries.1 hshape naming s.workspace.naming)
        (Room.allows_iff.mp hroom n hn)
    refine ⟨_, ?_, sameAnswers_filledTop hes hshape naming s.workspace.naming⟩
    rw [goes_loadDocument_of_shape hgiven (shape_filledTop hes.entries.1 hshape), hv, hagain, hdepth]
    rfl

/-- What JSON texts hold, given as it is, as a text or as bytes, is loaded within limits if it has
the shape of a document and a name for its stack without too many digits, and is not deeper than
there is room to freeze; then nothing of it is lost but what is empty at its top. A text that is
read and whatever else has not that shape, or is no JSON, is a fault of the document. Only a text
that opens more brackets than there is room for is not read for want of room. -/
theorem loadDocument_exact (s : Session) (limits : Limits) (v : Value)
    (hv : Presentable (s.workspace.heap.datum v)) :
    (∀ es, given limits.reading (s.workspace.heap.datum v) = .ok (.mapping false es) → Shape es →
      (hasLongName (s.workspace.heap.datum v) = true →
        (goes (loadDocumentWithin limits v) s).1 = .error (.json .longNumeral)) ∧
      (hasLongName (s.workspace.heap.datum v) = false → ∃ doc, Keeps doc es ∧
        doc.depth ≤ max 2 (Datum.depth (.mapping false es)) ∧
        (goes (loadDocumentWithin limits v) s).1 =
          if limits.freezing.allows doc.depth then .ok doc
          else .error (.ofBreakdown (.tooDeep .values)))) ∧
    ((∀ cause, given limits.reading (s.workspace.heap.datum v) ≠ .error (.breakdown cause)) →
      (∀ es, given limits.reading (s.workspace.heap.datum v) = .ok (.mapping false es) → ¬ Shape es) →
      ∃ fault, (goes (loadDocumentWithin limits v) s).1 = .error (.fault (.document fault))) ∧
    ∀ cause, given limits.reading (s.workspace.heap.datum v) = .error (.breakdown cause) →
      (goes (loadDocumentWithin limits v) s).1 = .error (.ofBreakdown cause) ∧
        ∃ n, limits.reading = some n ∧ n < bracketsIn (s.workspace.heap.datum v) := by
  refine ⟨fun es hgiven hshape => ⟨fun hname => ?_, fun hname => ?_⟩, fun hread hnone => ?_,
    fun cause hcause => ⟨?_, lt_bracketsIn hcause⟩⟩
  · rw [goes_loadDocument_of_shape hgiven hshape, hname]
    rfl
  · have hheld := held_of_given hv hgiven
    refine ⟨loaded s.workspace.naming es, keeps_loaded hheld hshape ?_ _, depth_loaded_le hshape _, ?_⟩
    · rw [hasLongName_of_given hgiven, hname]
    · rw [goes_loadDocument_of_shape hgiven hshape, hname]
      rfl
  · obtain ⟨fault, hfault⟩ : ∃ fault,
        loadWithin limits.reading s.workspace.naming (s.workspace.heap.datum v) =
          .ok (.error fault) := by
      cases hgiven : given limits.reading (s.workspace.heap.datum v) with
      | error fault =>
        unfold loadWithin
        rw [hgiven]
        cases fault with
        | breakdown cause => exact absurd hgiven (hread cause)
        | _ => exact ⟨_, rfl⟩
      | ok x =>
        have hload : loadWithin limits.reading s.workspace.naming (s.workspace.heap.datum v) =
            .ok (ofDatum s.workspace.naming x) := by
          rw [loadWithin, hgiven]
          rfl
        rw [hload]
        cases held_of_given hv hgiven with
        | scalar => exact ⟨_, rfl⟩
        | list => exact ⟨_, rfl⟩
        | @mapping es =>
          cases hofEntries : ofEntries s.workspace.naming es with
          | error fault => exact ⟨fault, congrArg Except.ok hofEntries⟩
          | ok doc => exact absurd (ofEntries_eq_ok.mp hofEntries).1 (hnone es hgiven)
    exact ⟨fault, by rw [goes_loadDocumentWithin, hfault]⟩
  · rw [goes_loadDocumentWithin, loadWithin, hcause]

/-- A session in which a caller has made a mapping of the shape of a document. -/
def imageSession : Session where
  environment := ⟨"/work", []⟩
  workspace :=
    { heap :=
        { cells :=
            #[.mapping [], .mapping [(.text "a", .cell 0)], .mapping [(.text "image", .cell 1)],
              .mapping [(.text "resource", .cell 0), (.text "data", .cell 2)]] } }

/-- The entries of the mapping. -/
def imageEntries : Entries Datum :=
  [(.text "resource", .mapping false []),
    (.text "data", .mapping false [(.text "image", .mapping false [(.text "a", .mapping false [])])])]

/-- What has the shape of a document loads. -/
private theorem shape_of_isOk {es : Entries Datum} (h : (ofEntries Naming.bare es).isOk = true) :
    Shape es := by
  cases hload : ofEntries Naming.bare es with
  | ok doc => exact (ofEntries_eq_ok.mp hload).1
  | error fault =>
    rw [hload] at h
    cases h

/-- The mapping is loaded and kept but for its empty resources; a text that is no JSON is a fault. -/
theorem loadDocument_exact_image :
    (∃ doc, (goes (loadDocumentWithin .usual (.cell 3)) imageSession).1 = .ok doc ∧
      Keeps doc imageEntries) ∧
    ∃ fault, (goes (loadDocumentWithin .usual (.text "[1")) imageSession).1 =
      .error (.fault (.document fault)) := by
  have hempty : Json.Held (.mapping false []) := .mapping Entries.fields_nil nofun
  have himage : Json.Held (.mapping false [(.text "image", .mapping false
      [(.text "a", .mapping false [])])]) :=
    .mapping (by decide +kernel) (List.forall_mem_singleton.mpr
      (.mapping (by decide +kernel) (List.forall_mem_singleton.mpr hempty)))
  have hheld : Json.Held (.mapping false imageEntries) :=
    .mapping (by decide +kernel) (List.forall_mem_cons.mpr
      ⟨hempty, List.forall_mem_singleton.mpr himage⟩)
  constructor
  · obtain ⟨doc, hkeeps, hdepth, hdoc⟩ :=
      ((loadDocument_exact imageSession .usual (.cell 3) (.inl hheld)).1 imageEntries rfl
        (shape_of_isOk (by decide +kernel))).2 (by decide +kernel)
    have hroom : Limits.usual.freezing.allows doc.depth = true := by
      have hshallow : max 2 (Datum.depth (.mapping false imageEntries)) = 4 := by decide +kernel
      refine Room.allows_iff.mpr fun n hn => ?_
      cases hn
      omega
    rw [hroom] at hdoc
    exact ⟨doc, hdoc, hkeeps⟩
  · have hread : Json.readWithin Limits.usual.reading "[1" =
        .error (.wrong .expectingComma 1 3 2) := by rfl
    refine (loadDocument_exact imageSession .usual (.text "[1") (.inl (.scalar _))).2.1 ?_ ?_
    · intro cause hcause
      cases hread.symm.trans hcause
    · intro es hes
      cases hread.symm.trans hes

/-- Brackets that open are no JSON. -/
private theorem exists_error_of_brackets (n : Nat) :
    ∃ fault, Json.read (Json.bracketText (n + 1)) = .error fault := by
  have hopen (n : Nat) : Json.unclosed .outside (List.replicate n '[') = n := by
    induction n with
    | zero => rfl
    | succ n ih =>
      rw [List.replicate_succ, Json.unclosed, if_neg (by decide), ih, Json.opening, if_pos (.inl rfl)]
      omega
  cases hread : Json.read (Json.bracketText (n + 1)) with
  | error fault => exact ⟨fault, rfl⟩
  | ok d =>
    have hclosed := Json.unclosed_of_read hread
    rw [Json.bracketText, String.toList_ofList, hopen] at hclosed
    omega

/-- A session in which a caller has made the mapping of a document whose stack has a number for its
name. -/
def numberedSession : Session where
  environment := ⟨"/work", []⟩
  workspace :=
    { heap :=
        { cells :=
            #[.mapping [(.text "stackName", .scalar (.int Limits.longInt))],
              .mapping [(.text "metadata", .cell 0)], .mapping [(.text "//", .cell 1)]] } }

/-- The entries of the mapping. -/
def numberedEntries : Entries Datum :=
  [(.text "//", .mapping false [(.text "metadata", .mapping false
    [(.text "stackName", .int Limits.longInt)])])]

/-- Under the usual limits a text that is no JSON is no fault of the document if its brackets are
too deep; and what has the shape of a document does not load if the name of its stack has too many
digits. -/
theorem loadDocument_breaksDown :
    (goes (loadDocumentWithin .usual (.text (Json.bracketText 951))) numberedSession).1 =
        .error (.raised "RecursionError"
          "maximum recursion depth exceeded while decoding a JSON array from a unicode string") ∧
      (∃ fault, Json.read (Json.bracketText 951) = .error fault) ∧
      numberedSession.workspace.heap.datum (.cell 2) = .mapping false numberedEntries ∧
      Json.Held (.mapping false numberedEntries) ∧ Shape numberedEntries ∧
      (goes (loadDocumentWithin .usual (.cell 2)) numberedSession).1 = .error (.json .longNumeral) := by
  have hdatum : numberedSession.workspace.heap.datum (.cell 2) = .mapping false numberedEntries := rfl
  have hshape : Shape numberedEntries := shape_of_isOk (by decide +kernel)
  have hlong : hasLongName (.mapping false numberedEntries) = true := by decide +kernel
  refine ⟨?_, exists_error_of_brackets 950, hdatum, ?_, hshape, ?_⟩
  · have hgiven : given Limits.usual.reading (numberedSession.workspace.heap.datum
        (.text (Json.bracketText 951))) = .error (.breakdown (.tooDeep .array)) :=
      Json.readWithin_brackets 950
    rw [goes_loadDocumentWithin, loadWithin, hgiven]
    rfl
  · have hentry {k : Key} {d : Datum} (hk : Entries.Fields [(k, d)]) (hd : Json.Held d) :
        Json.Held (.mapping false [(k, d)]) := .mapping hk (List.forall_mem_singleton.mpr hd)
    exact hentry (by decide +kernel) <| hentry (by decide +kernel) <|
      hentry (by decide +kernel) (.scalar _)
  · have hgiven : given Limits.usual.reading (numberedSession.workspace.heap.datum (.cell 2)) =
        .ok (.mapping false numberedEntries) := by
      rw [hdatum]
      rfl
    rw [goes_loadDocument_of_shape hgiven hshape, hdatum, hlong]
    rfl

end Session

end Groundplan
