import Groundplan.Proofs.Datum.Likeness
import Groundplan.Proofs.Document.Queries
import Mathlib.Tactic.TFAE

/-!
# Questions that agree

A document comes from a stack or is loaded, from a mapping or from JSON. In either case its sections
have the shape of their kinds and no type stands in one twice, so all ways to ask for the blocks of a
type give one answer: whether there are any, how many, which they are, which types there are, and what
the summary counts.
-/

namespace Groundplan

/-- No mapping in what JSON was read as has a key twice. -/
theorem Json.keyed_of_given {n : Nat} {d : Datum} (h : d.Everywhere (Given n)) : d.Keyed := by
  intro x hw
  have hx := h x hw
  cases x with
  | mapping fixed es =>
    cases fixed with
    | false => exact Entries.distinct_iff_keys.mp hx.1.distinct
    | true => exact hx.elim
  | _ => exact .nil

namespace Document

variable {doc : Document} {kind : BlockKind}

/-- A document that a stack became, or one that was loaded from a datum in whose mappings no key comes
twice. -/
inductive Obtained : Document → Prop
  | synthesized {w : Workspace} {target : Value} {emit : Bool} {doc : Document} (hw : w.Reached)
      (h : (w.synthesize target emit).2 = .ok doc) : Obtained doc
  | loaded {naming : Naming} {d : Datum} {doc : Document} (hd : d.Keyed)
      (h : load naming d = .ok doc) : Obtained doc

/-- The sections of a document have the shape of their kinds, and no type stands in one twice. -/
structure Formed (doc : Document) : Prop where
  shape : ∀ kind d, doc.section? kind = some d → SectionShape kind d
  distinct : ∀ kind, kind ≠ .output → (doc.entriesOf kind).Distinct

/-! ### Where documents come from -/

private theorem entries?_freeze (d : Datum) :
    d.freeze.entries? = d.entries?.map (Entries.mapValues Datum.freeze) := by
  cases d with
  | mapping fixed es => simp [Datum.freeze, Datum.withFixed, Datum.entries?, Entries.mapValues]
  | _ => rfl

private theorem exists_entries_freeze {d : Datum} (h : ∃ es, d.entries? = some es) :
    ∃ es, d.freeze.entries? = some es := by
  obtain ⟨es, hes⟩ := h
  exact ⟨_, by rw [entries?_freeze, hes, Option.map_some]⟩

private theorem EntryShape.freeze {d : Datum} (h : EntryShape kind d) : EntryShape kind d.freeze := by
  cases kind with
  | resource | data =>
    obtain ⟨ids, hids, h⟩ := h
    refine ⟨ids.mapValues Datum.freeze, by rw [entries?_freeze, hids, Option.map_some], ?_⟩
    intro entry hentry
    obtain ⟨e, he, rfl⟩ := List.mem_map.mp hentry
    exact exists_entries_freeze (h e he)
  | provider =>
    obtain ⟨fixed, items, rfl, h⟩ := h
    refine ⟨true, items.map Datum.freeze, by simp [Datum.freeze, Datum.withFixed], ?_⟩
    intro body hbody
    obtain ⟨b, hb, rfl⟩ := List.mem_map.mp hbody
    exact exists_entries_freeze (h b hb)
  | output =>
    obtain ⟨es, hes, hvalue⟩ := h
    refine ⟨es.mapValues Datum.freeze, by rw [entries?_freeze, hes, Option.map_some], ?_⟩
    rwa [Entries.has_eq_any_keys, Entries.keys_mapValues, ← Entries.has_eq_any_keys]

private theorem SectionShape.freeze {d : Datum} (h : SectionShape kind d) :
    SectionShape kind d.freeze := by
  obtain ⟨es, hes, h⟩ := h
  refine ⟨es.mapValues Datum.freeze, by rw [entries?_freeze, hes, Option.map_some], ?_⟩
  intro entry hentry
  obtain ⟨e, he, rfl⟩ := List.mem_map.mp hentry
  exact (h e he).freeze

private theorem sectionShape_nothing (kind : BlockKind) : SectionShape kind (.mapping false []) :=
  ⟨[], rfl, nofun⟩

/-- A document is formed if its sections are, before they are fixed. -/
private theorem formed_of_sections
    (h : ∀ kind d, doc.section? kind = some d →
      ∃ v : Datum, d = v.freeze ∧ SectionShape kind v ∧ (kind ≠ .output → v.entries.Distinct)) :
    doc.Formed where
  shape := by
    intro kind d hd
    obtain ⟨v, rfl, hv, -⟩ := h kind d hd
    exact hv.freeze
  distinct := by
    intro kind hkind
    rw [entriesOf]
    cases hd : doc.section? kind with
    | none => exact .nil
    | some d =>
      obtain ⟨v, rfl, -, hv⟩ := h kind d hd
      rw [Option.map_some, Option.getD_some, Entries.distinct_iff_keys, keys_entries_freeze]
      exact Entries.distinct_iff_keys.mp (hv hkind)

private theorem formed_loaded {naming : Naming} {fixed : Bool} {es : Entries Datum}
    (hkeyed : (Datum.mapping fixed es).Keyed) (hshape : Shape es) : (loaded naming es).Formed := by
  refine formed_of_sections fun kind d hd => ?_
  rw [section?_loaded] at hd
  obtain ⟨v, hv, rfl⟩ := Option.map_eq_some_iff.mp hd
  rcases Option.or_eq_some_iff.mp hv with hv | ⟨-, hv⟩
  · refine ⟨v, rfl, hshape.sections kind v hv, fun _ => ?_⟩
    have hmem := Entries.mem_of_get?_text hv
    obtain ⟨types, htypes, -⟩ := hshape.sections kind v hv
    cases v with
    | mapping f types => exact (Datum.keyed_mapping.mp ((Datum.keyed_mapping.mp hkeyed).2 _ hmem)).1
    | _ => cases htypes
  · split at hv
    · cases hv
      exact ⟨_, rfl, sectionShape_nothing _, fun _ => .nil⟩
    · cases hv

/-- What is given has distinct keys throughout if the datum itself has. -/
private theorem keyed_of_given {room : Room} {d x : Datum} (hd : d.Keyed) (h : given room d = .ok x) :
    x.Keyed := by
  unfold given at h
  split at h
  · exact Json.keyed_of_given (Json.everywhere_given_of_readWithin h)
  · obtain ⟨n, hgiven⟩ := Json.exists_given_of_readBytesWithin h
    exact Json.keyed_of_given hgiven
  · cases h
    exact hd

/-- What is loaded is formed. -/
private theorem formed_of_load {naming : Naming} {d : Datum} (hd : d.Keyed)
    (h : load naming d = .ok doc) : doc.Formed := by
  unfold load at h
  cases hgiven : given none d with
  | error fault =>
    rw [hgiven] at h
    cases h
  | ok x =>
    rw [hgiven] at h
    cases x with
    | mapping fixed es =>
      obtain ⟨hshape, rfl⟩ := ofEntries_eq_ok.mp h
      exact formed_loaded (keyed_of_given hd hgiven) hshape
    | _ => cases h

private theorem distinct_sectionOf (placed : List Placed) (hkind : kind ≠ .output) :
    (Placed.sectionOf kind placed).entries.Distinct := by
  have htypes {own : List Placed} {value : Option String → Datum} :
      Entries.Distinct ((Placed.types own).map fun type => (Key.ofText? type, value type)) := by
    refine List.pairwise_map.mpr ((Placed.nodup_types _).imp fun {a b} hne => ?_)
    rw [Key.same_ofText?]
    simpa using hne
  cases kind with
  | output => exact absurd rfl hkind
  | provider | resource | data => exact htypes

/-- What a stack becomes is formed. -/
private theorem formed_of_synthesize {w : Workspace} {target : Value} {emit : Bool}
    (hw : w.Reached) (h : (w.synthesize target emit).2 = .ok doc) : doc.Formed := by
  unfold Workspace.synthesize at h
  split at h
  · next stack =>
    obtain ⟨placed, hs, rfl⟩ := @Workspace.synthesize_eq_ok w stack _ _ h
    refine formed_of_sections fun kind d hd => ?_
    rw [section?_of, Placed.get?_sections] at hd
    obtain ⟨v, hv, rfl⟩ := Option.map_eq_some_iff.mp hd
    split at hv
    · cases hv
      exact ⟨_, rfl, sectionShape_sectionOf (hs.shaped hw.stored) kind, distinct_sectionOf placed⟩
    · split at hv
      · cases hv
        exact ⟨_, rfl, sectionShape_nothing _, fun _ => .nil⟩
      · cases hv
  · cases h

theorem Obtained.formed (h : doc.Obtained) : doc.Formed := by
  cases h with
  | synthesized hw h => exact formed_of_synthesize hw h
  | loaded hd h => exact formed_of_load hd h

/-! ### What is asked -/

/-- How many blocks of a kind and type the summary of a document reports. -/
def reported? (doc : Document) (kind : BlockKind) (type : String) : Option Datum :=
  ((doc.summary.toDatum.field? "blocks").bind (·.field? kind.name)).bind (·.field? type)

private theorem entriesOf_of_not_hasSection (h : doc.hasSection kind = false) :
    doc.entriesOf kind = [] := by
  rw [hasSection] at h
  rw [entriesOf]
  cases hd : doc.section? kind with
  | none => rfl
  | some d =>
    rw [hd] at h
    cases d with
    | mapping fixed es => simpa [Datum.isTruthy, Datum.entries, Datum.entries?] using h
    | _ => rfl

/-- What the summary reports of a kind. -/
private def report (doc : Document) (kind : BlockKind) : Datum :=
  .mapping false ((counts kind (doc.entriesOf kind)).mapValues fun n => .int (Int.ofNat n))

private theorem field?_summary :
    doc.summary.toDatum.field? "blocks" =
      some (.mapping false ((BlockKind.all.filter doc.hasSection).map fun kind =>
        (kind.key, report doc kind))) := by
  simp [summary, Summary.toDatum, Datum.field?, Datum.record, Datum.entries, Datum.entries?,
    Entries.get?, Function.comp_def, report]

/-- The summary reports the sizes of what stands in a section. -/
theorem reported?_eq (hkind : kind ≠ .output) (type : String) :
    doc.reported? kind type =
      ((doc.entriesOf kind).get? (.text type)).map fun d => .int (Int.ofNat d.size) := by
  have hcounts : counts kind (doc.entriesOf kind) = (doc.entriesOf kind).mapValues Datum.size := by
    cases kind with
    | output => exact absurd rfl hkind
    | _ => rfl
  rw [reported?, field?_summary, Option.bind_some]
  by_cases h : doc.hasSection kind = true
  · have hfield : (Datum.mapping false ((BlockKind.all.filter doc.hasSection).map fun kind =>
        (kind.key, report doc kind))).field? kind.name = some (report doc kind) := by
      refine Entries.get?_map_of_mem (by simp) (fun k _ hk => ?_)
        (List.mem_filter.mpr ⟨kind.mem_all, h⟩)
      rw [BlockKind.same_key, beq_iff_eq] at hk
      rw [hk]
    have hreport : (report doc kind).field? type =
        Entries.get? ((counts kind (doc.entriesOf kind)).mapValues fun n =>
          Datum.int (Int.ofNat n)) (.text type) := rfl
    rw [hfield, Option.bind_some, hreport, hcounts, Entries.get?_mapValues, Entries.get?_mapValues,
      Option.map_map]
    rfl
  · have hfield : (Datum.mapping false ((BlockKind.all.filter doc.hasSection).map fun kind =>
        (kind.key, report doc kind))).field? kind.name = none := by
      refine Entries.get?_map_eq_none fun k hk => ?_
      rw [BlockKind.same_key, beq_eq_false_iff_ne]
      rintro rfl
      exact h (List.mem_filter.mp hk).2
    rw [hfield, entriesOf_of_not_hasSection (Bool.eq_false_iff.mpr h)]
    rfl

/-- A mapping has all that an empty mapping asks for. -/
private theorem satisfies_nothing {d : Datum} {fixed : Bool} (h : ∃ es, d.entries? = some es) :
    d.satisfies (.mapping fixed []) = true := by
  obtain ⟨es, hes⟩ := h
  cases d with
  | mapping f es => rfl
  | _ => cases hes

/-- What stands under a type of resources, data sources or providers is truthy, has bodies and is of a
size that is not zero, all together; its bodies are mappings. -/
private theorem EntryShape.bodiesOf {d : Datum} (hkind : kind ≠ .output) (h : EntryShape kind d) :
    d.size = (Document.bodiesOf kind d).length ∧
      (d.isTruthy = true ↔ Document.bodiesOf kind d ≠ []) ∧
      ∀ b ∈ Document.bodiesOf kind d, ∃ es, b.entries? = some es := by
  cases kind with
  | output => exact absurd rfl hkind
  | provider =>
    obtain ⟨fixed, items, rfl, h⟩ := h
    exact ⟨rfl, by simp [Datum.isTruthy, Document.bodiesOf], h⟩
  | resource | data =>
    obtain ⟨ids, hids, h⟩ := h
    cases d with
    | mapping fixed es =>
      cases hids
      refine ⟨by simp [Datum.size, Document.bodiesOf, Datum.entries, Datum.entries?, Entries.values],
        by simp [Datum.isTruthy, Document.bodiesOf, Datum.entries, Datum.entries?, Entries.values],
        fun b hb => ?_⟩
      obtain ⟨e, he, rfl⟩ := List.mem_map.mp hb
      exact h e he
    | _ => cases hids

/-- A question with a mapping for a predicate is answered. -/
private theorem hasTypeWith_mapping (type : Datum) (fixed : Bool) (asked : Entries Datum) :
    doc.hasTypeWith kind type (.mapping fixed asked) =
      .ok ((doc.bodies kind type).any fun b => b.satisfies (.mapping fixed asked)) := rfl

namespace Formed

variable (hdoc : doc.Formed) (hkind : kind ≠ .output)
include hdoc

private theorem entryShape {k : Key} {d : Datum} (hd : (doc.entriesOf kind).get? k = some d) :
    EntryShape kind d := by
  obtain ⟨l, hmem, -⟩ := Entries.exists_mem_of_get? hd
  rw [entriesOf] at hmem
  cases hsection : doc.section? kind with
  | none =>
    rw [hsection] at hmem
    cases hmem
  | some v =>
    obtain ⟨es, hes, h⟩ := hdoc.shape kind v hsection
    rw [hsection, Option.map_some, Option.getD_some, Datum.entries, hes] at hmem
    exact h (l, d) hmem

include hkind

private theorem hasType_iff (type : String) :
    doc.hasType kind (.text type) = true ↔ doc.bodies kind (.text type) ≠ [] := by
  show (((doc.entriesOf kind).get? (.text type)).map Datum.isTruthy).getD false = true ↔
    (((doc.entriesOf kind).get? (.text type)).map (bodiesOf kind)).getD [] ≠ []
  cases hd : (doc.entriesOf kind).get? (.text type) with
  | none => simp
  | some d => exact ((hdoc.entryShape hd).bodiesOf hkind).2.1

private theorem mapping_of_mem_bodies {type : String} {b : Datum}
    (hb : b ∈ doc.bodies kind (.text type)) : ∃ es, b.entries? = some es := by
  change b ∈ (((doc.entriesOf kind).get? (.text type)).map (bodiesOf kind)).getD [] at hb
  cases hd : (doc.entriesOf kind).get? (.text type) with
  | none =>
    rw [hd] at hb
    cases hb
  | some d =>
    rw [hd] at hb
    exact ((hdoc.entryShape hd).bodiesOf hkind).2.2 b hb

/-- Asking for nothing in particular is asking for the type. -/
private theorem hasTypeWith_nothing (type : String) (fixed : Bool) :
    doc.hasTypeWith kind (.text type) (.mapping fixed []) =
      .ok (doc.hasType kind (.text type)) := by
  rw [hasTypeWith_mapping]
  congr 1
  rw [Bool.eq_iff_iff, hdoc.hasType_iff hkind, List.any_eq_true, ne_eq, List.eq_nil_iff_forall_not_mem,
    not_forall_not]
  exact exists_congr fun b => and_iff_left_of_imp fun hb =>
    satisfies_nothing (hdoc.mapping_of_mem_bodies hkind hb)

/-- The summary reports how many blocks of a type there are, for each type in a section. -/
private theorem reported?_eq_count (type : String) :
    doc.reported? kind type =
      if (doc.entriesOf kind).has (.text type) then
        some (.int (Int.ofNat (doc.count kind (.text type))))
      else none := by
  rw [reported?_eq hkind, Entries.has_eq_isSome_get?]
  show _ = if _ then some (Datum.int (Int.ofNat
    ((((doc.entriesOf kind).get? (.text type)).map (bodiesOf kind)).getD []).length)) else none
  cases hd : (doc.entriesOf kind).get? (.text type) with
  | none => rfl
  | some d =>
    rw [Option.map_some, ((hdoc.entryShape hd).bodiesOf hkind).1]
    rfl

private theorem hasType_iff_reported (type : String) :
    doc.hasType kind (.text type) = true ↔
      ∃ n : Nat, 0 < n ∧ doc.reported? kind type = some (.int (Int.ofNat n)) := by
  have hcount : doc.hasType kind (.text type) = true ↔ 0 < doc.count kind (.text type) := by
    rw [hdoc.hasType_iff hkind, count, List.length_pos_iff]
  rw [hdoc.reported?_eq_count hkind]
  by_cases hhas : (doc.entriesOf kind).has (.text type) = true
  · simp [hhas, hcount]
  · have hnone : (doc.entriesOf kind).get? (.text type) = none := by
      rwa [Entries.has_eq_isSome_get?, Option.not_isSome_iff_eq_none] at hhas
    have htype : doc.hasType kind (.text type) = false := by
      show (((doc.entriesOf kind).get? (.text type)).map Datum.isTruthy).getD false = false
      rw [hnone]
      rfl
    simp [hhas, htype]

omit hkind in
private theorem mem_resourceTypes_iff (type : String) :
    .text type ∈ doc.resourceTypes ↔ doc.hasType .resource (.text type) = true := by
  show _ ↔ (((doc.entriesOf .resource).get? (.text type)).map Datum.isTruthy).getD false = true
  have hdistinct := hdoc.distinct .resource (by decide)
  simp only [resourceTypes, List.mem_map, List.mem_filter]
  constructor
  · rintro ⟨e, ⟨he, htruthy⟩, hk⟩
    have hget := hdistinct.get?_of_mem (k := .text type) he (by simp [hk])
    rwa [hget]
  · intro htruthy
    cases hd : (doc.entriesOf .resource).get? (.text type) with
    | none =>
      rw [hd] at htruthy
      cases htruthy
    | some d =>
      rw [hd] at htruthy
      exact ⟨(.text type, d), ⟨Entries.mem_of_get?_text hd, htruthy⟩, rfl⟩

end Formed

/-- The resources of a type, all of them, stand with their bodies in order. -/
private theorem exists_findResources (type : Datum) :
    ∃ all, doc.findResources type none = .ok all ∧ all.values = doc.bodies .resource type ∧
      ∀ (fixed : Bool) (asked : Entries Datum),
        doc.findResources type (some (.mapping fixed asked)) =
          .ok (all.filter fun e => e.2.satisfies (.mapping fixed asked)) := by
  refine ⟨_, rfl, ?_, fun _ _ => rfl⟩
  rw [bodies]
  cases doc.ofType? .resource type <;> rfl

/-- Whatever document there is, whatever type and whatever mapping for a predicate: the five ways to
ask whether there is a resource of the type agree, a resource with what the predicate asks for is
there exactly if one is found, those found are the resources of the type that have it, in order, and
as many as are counted stand there, which is what the summary reports. Data sources and providers of
the type are there exactly if nothing in particular is asked of them, and if the summary counts
them. -/
theorem Obtained.questions_agree (h : doc.Obtained) (type : String) (fixed : Bool)
    (asked : Entries Datum) :
    (∃ all found, doc.findResources (.text type) none = .ok all ∧
      doc.findResources (.text type) (some (.mapping fixed asked)) = .ok found ∧
      List.TFAE [doc.hasType .resource (.text type) = true, 0 < doc.count .resource (.text type),
        all ≠ [], .text type ∈ doc.resourceTypes,
        doc.hasTypeWith .resource (.text type) (.mapping fixed []) = .ok true] ∧
      doc.hasTypeWith .resource (.text type) (.mapping fixed asked) = .ok (decide (found ≠ [])) ∧
      found = all.filter (fun e => e.2.satisfies (.mapping fixed asked)) ∧
      all.length = doc.count .resource (.text type)) ∧
    ((doc.entriesOf .resource).has (.text type) = true →
      doc.reported? .resource type =
        some (.int (Int.ofNat (doc.count .resource (.text type))))) ∧
    ∀ kind, kind = .data ∨ kind = .provider →
      doc.hasTypeWith kind (.text type) (.mapping fixed []) = .ok (doc.hasType kind (.text type)) ∧
      (doc.hasType kind (.text type) = true ↔
        ∃ n : Nat, 0 < n ∧ doc.reported? kind type = some (.int (Int.ofNat n))) := by
  have hdoc := h.formed
  refine ⟨?_, fun htype => ?_, fun kind hkind => ?_⟩
  · obtain ⟨all, hall, hbodies, hfind⟩ := @exists_findResources doc (.text type)
    have hcount : all.length = doc.count .resource (.text type) := by
      rw [count, ← hbodies, Entries.values, List.length_map]
    have hempty : doc.hasType .resource (.text type) = true ↔ all ≠ [] := by
      rw [hdoc.hasType_iff (by decide), ← hbodies, Entries.values, ne_eq, List.map_eq_nil_iff]
    refine ⟨all, _, hall, hfind fixed asked, ?_, ?_, rfl, hcount⟩
    · have hpositive : 0 < doc.count .resource (.text type) ↔ all ≠ [] := by
        rw [← hcount, List.length_pos_iff]
      have hmem := hdoc.mem_resourceTypes_iff type
      have hnothing := @Formed.hasTypeWith_nothing doc .resource hdoc (by decide) type fixed
      -- Each way to ask whether there is one comes down to whether any is found.
      tfae_have 1 ↔ 3 := hempty
      tfae_have 2 ↔ 3 := hpositive
      tfae_have 4 ↔ 1 := hmem
      tfae_have 5 ↔ 1 := by rw [hnothing, Except.ok.injEq]
      tfae_finish
    · rw [hasTypeWith_mapping, ← hbodies]
      congr 1
      rw [Entries.values, List.any_map, Bool.eq_iff_iff, List.any_eq_true, decide_eq_true_iff, ne_eq,
        List.filter_eq_nil_iff]
      simp
  · rw [hdoc.reported?_eq_count (by decide), if_pos htype]
  · have hkind : kind ≠ .output := by rcases hkind with rfl | rfl <;> decide
    exact ⟨hdoc.hasTypeWith_nothing hkind type fixed, hdoc.hasType_iff_reported hkind type⟩

/-- A document with one subnet, and without any network although there is a place for networks. -/
def subnetText : String :=
  "\x7b\"resource\": \x7b\"vpc\": \x7b\x7d, \"subnet\": \x7b\"a\": \x7b\"size\": 1\x7d\x7d\x7d\x7d"

/-- A subnet is found in all ways if there is one, and of a type that only stands in the section the
summary reports no blocks. -/
theorem questions_agree_subnet : ∃ doc,
    load Naming.bare (.text subnetText) = .ok doc ∧
    doc.hasTypeWith .resource (.text "subnet") (.mapping false []) = .ok true ∧
    .text "subnet" ∈ doc.resourceTypes ∧
    doc.reported? .resource "vpc" =
      some (.int (Int.ofNat (doc.count .resource (.text "vpc")))) := by
  have hrun : (load Naming.bare (.text subnetText)).toOption.map
      (fun doc => (doc.hasType .resource (.text "subnet"),
        (doc.entriesOf .resource).has (.text "vpc"))) = some (true, true) := by
    decide +kernel
  obtain ⟨doc, hload, hrun⟩ := Option.map_eq_some_iff.mp hrun
  obtain ⟨hsubnet, hvpc⟩ := Prod.mk.inj hrun
  have hload := toOption_eq_some.mp hload
  have hdoc : doc.Obtained := .loaded (fun x hx => by rw [Datum.within_atom.mp hx]; exact .nil) hload
  obtain ⟨⟨_, _, -, -, htfae, -⟩, -⟩ := hdoc.questions_agree "subnet" false []
  obtain ⟨-, hreported, -⟩ := hdoc.questions_agree "vpc" false []
  exact ⟨doc, hload, (htfae.out 0 4).mp hsubnet, (htfae.out 0 3).mp hsubnet, hreported hvpc⟩

end Document

end Groundplan
