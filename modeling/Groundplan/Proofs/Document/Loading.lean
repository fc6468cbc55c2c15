import Groundplan.Proofs.Document.Shape

/-!
# Documents that load

The sections that blocks make up have the shape that loading asks for. A document of them, as a datum
that may be changed, is loaded as itself; only the name of its stack comes from the metadata.
-/

namespace Groundplan

namespace Datum

variable {fixed : Bool}

/-- A mapping is as fixed as it may be if what it leads to is. -/
theorem withFixed_mapping {es : Entries Datum} (h : ∀ e ∈ es, e.2.withFixed fixed = e.2) :
    (Datum.mapping fixed es).withFixed fixed = .mapping fixed es := by
  rw [withFixed, withFixedEntries_eq_map]
  congr 1
  refine Eq.trans (List.map_congr_left fun e he => ?_) (List.map_id es)
  exact Prod.ext rfl (h e he)

/-- A sequence is as fixed as it may be if its items are. -/
theorem withFixed_sequence {items : List Datum} (h : ∀ d ∈ items, d.withFixed fixed = d) :
    (Datum.sequence fixed items).withFixed fixed = .sequence fixed items := by
  have hmap : items.map (withFixed fixed) = items.map id := List.map_congr_left h
  rw [withFixed, withFixedItems_eq_map, hmap, List.map_id]

end Datum

/-- A block of a body that may be changed throughout and is a mapping; that of an output has a
value. -/
structure Placed.Shaped (p : Placed) : Prop where
  thaw_eq : p.body.thaw = p.body
  mapping : ∃ es : Entries Datum, p.body = .mapping false es ∧
    (p.kind = .output → es.has (.text "value") = true)

namespace Placed

variable {placed : List Placed}

/-- What is found under a kind: the section of its blocks, or an empty one of resources. -/
theorem get?_sections (placed : List Placed) (kind : BlockKind) :
    (sections placed).get? kind.key =
      if placed.any fun p => p.kind == kind then some (sectionOf kind placed)
      else if kind = .resource then some (.mapping false []) else none := by
  have hempty : Entries.get? [(BlockKind.resource.key, Datum.mapping false [])] kind.key =
      if kind = .resource then some (.mapping false []) else none := by
    cases kind <;> simp [Entries.get?, BlockKind.name]
  rw [sections_eq, Document.withResources, Entries.has_eq_isSome_get?]
  by_cases hany : (placed.any fun p => p.kind == kind) = true
  · split
    · rw [get?_filled, if_pos hany]
    · rw [Entries.get?_append, get?_filled, if_pos hany, Option.some_or]
  · rw [if_neg hany]
    split
    · next hresource =>
      have hne : kind ≠ .resource := by
        rintro rfl
        rw [get?_filled, if_neg hany] at hresource
        cases hresource
      rw [get?_filled, if_neg hany, if_neg hne]
    · rw [Entries.get?_append, get?_filled, if_neg hany, Option.none_or, hempty]

/-- A section that holds a block is not empty. -/
theorem isTruthy_freeze_sectionOf {kind : BlockKind}
    (h : (placed.any fun p => p.kind == kind) = true) :
    (sectionOf kind placed).freeze.isTruthy = true := by
  obtain ⟨p, hp, hk⟩ := List.any_eq_true.mp h
  have hmem : p ∈ placed.filter fun p => p.kind == kind := List.mem_filter.mpr ⟨hp, hk⟩
  have htype : p.typeTag ∈ types (placed.filter fun p => p.kind == kind) :=
    List.mem_eraseDups.mpr (List.mem_map_of_mem hmem)
  have hown := List.ne_nil_of_mem hmem
  have htypes := List.ne_nil_of_mem htype
  cases kind with
  | output => simpa [sectionOf, Datum.freeze, Datum.withFixed, Datum.isTruthy] using hown
  | provider | resource | data =>
    simpa [sectionOf, Datum.freeze, Datum.withFixed, Datum.isTruthy] using htypes

/-- The section that shaped blocks make up may be changed throughout. -/
private theorem thaw_sectionOf (h : ∀ p ∈ placed, p.Shaped) (kind : BlockKind) :
    (sectionOf kind placed).thaw = sectionOf kind placed := by
  have hbody {P Q : Placed → Bool} : ∀ p ∈ (placed.filter P).filter Q, p.body.thaw = p.body :=
    fun p hp => (h p (List.mem_of_mem_filter (List.mem_of_mem_filter hp))).thaw_eq
  cases kind with
  | resource | data =>
    apply Datum.withFixed_mapping
    intro e he
    obtain ⟨t, -, rfl⟩ := List.mem_map.mp he
    apply Datum.withFixed_mapping
    intro e he
    obtain ⟨p, hp, rfl⟩ := List.mem_map.mp he
    exact hbody p hp
  | provider =>
    apply Datum.withFixed_mapping
    intro e he
    obtain ⟨t, -, rfl⟩ := List.mem_map.mp he
    apply Datum.withFixed_sequence
    intro d hd
    obtain ⟨p, hp, rfl⟩ := List.mem_map.mp hd
    exact hbody p hp
  | output =>
    apply Datum.withFixed_mapping
    intro e he
    obtain ⟨p, hp, rfl⟩ := List.mem_map.mp he
    exact (h p (List.mem_of_mem_filter hp)).thaw_eq

end Placed

namespace Document

variable {naming : Naming} {placed : List Placed}

/-- The section that shaped blocks make up has the shape of its kind. -/
theorem sectionShape_sectionOf (h : ∀ p ∈ placed, p.Shaped) (kind : BlockKind) :
    SectionShape kind (Placed.sectionOf kind placed) := by
  have hmem {p : Placed} {P : Placed → Bool} (hp : p ∈ placed.filter P) : p.Shaped :=
    h p (List.mem_of_mem_filter hp)
  have hbody {p : Placed} {P Q : Placed → Bool} (hp : p ∈ (placed.filter P).filter Q) :
      ∃ es, p.body.entries? = some es := by
    obtain ⟨es, hes, -⟩ := (hmem (List.mem_of_mem_filter hp)).mapping
    exact ⟨es, by rw [hes]; rfl⟩
  cases kind with
  | resource | data =>
    refine ⟨_, rfl, fun e he => ?_⟩
    obtain ⟨t, -, rfl⟩ := List.mem_map.mp he
    refine ⟨_, rfl, fun e he => ?_⟩
    obtain ⟨p, hp, rfl⟩ := List.mem_map.mp he
    exact hbody hp
  | provider =>
    refine ⟨_, rfl, fun e he => ?_⟩
    obtain ⟨t, -, rfl⟩ := List.mem_map.mp he
    refine ⟨_, _, rfl, fun d hd => ?_⟩
    obtain ⟨p, hp, rfl⟩ := List.mem_map.mp hd
    exact hbody hp
  | output =>
    refine ⟨_, rfl, fun e he => ?_⟩
    obtain ⟨p, hp, rfl⟩ := List.mem_map.mp he
    obtain ⟨es, hes, hvalue⟩ := (hmem hp).mapping
    have hkind : p.kind = .output := beq_iff_eq.mp (List.mem_filter.mp hp).2
    exact ⟨es, by rw [hes]; rfl, hvalue hkind⟩

private theorem filterMap_ite {α β : Type} {p : α → Bool} {g : α → β} (items : List α) :
    items.filterMap (fun a => if p a then some (g a) else none) = (items.filter p).map g := by
  induction items with
  | nil => rfl
  | cons a items ih =>
    by_cases ha : p a = true
    · simp [ha, ih]
    · simp [ha, ih]

/-- The sections that hold anything are those that hold a block. -/
theorem filledSections_of (h : ∀ p ∈ placed, p.Shaped) (name : String) (metadata : Entries Datum) :
    (of name (Placed.sections placed) metadata).filledSections = Placed.filled placed := by
  rw [filledSections, Placed.filled, ← filterMap_ite]
  apply List.filterMap_congr
  intro kind _
  rw [section?_of, Placed.get?_sections]
  by_cases hany : (placed.any fun p => p.kind == kind) = true
  · rw [if_pos hany, if_pos hany, Option.map_some]
    dsimp only
    rw [Placed.isTruthy_freeze_sectionOf hany, if_pos rfl, Datum.freeze, Datum.thaw,
      Datum.withFixed_withFixed, ← Datum.thaw, Placed.thaw_sectionOf h]
  · rw [if_neg hany, if_neg hany]
    by_cases hk : kind = .resource
    · rw [if_pos hk]
      rfl
    · rw [if_neg hk]
      rfl

/-- The sections of a mapping are those that blocks make up if it has those sections. -/
private theorem sectionsIn_eq_filled {entries : Entries Datum}
    (hentries : ∀ kind : BlockKind, entries.get? kind.key = (Placed.filled placed).get? kind.key) :
    sectionsIn entries BlockKind.all = Placed.filled placed := by
  rw [sectionsIn, Placed.filled, ← filterMap_ite]
  refine List.filterMap_congr fun kind _ => ?_
  rw [hentries, Placed.get?_filled]
  split <;> rfl

/-- The entries of a document before its sections. -/
def header (name : String) (emit : Bool) : Entries Datum :=
  if emit then [(metadataKey, .mapping false (Workspace.metadata name))] else []

/-- A document of blocks as a datum that may be changed. -/
theorem toDatum_of (h : ∀ p ∈ placed, p.Shaped) (name : String) (emit : Bool) :
    (of name (Placed.sections placed) (if emit then Workspace.metadata name else [])).toDatum =
      .mapping false (header name emit ++ Placed.filled placed) := by
  rw [toDatum, filledSections_of h]
  cases emit with
  | false => rfl
  | true => rfl

private theorem get?_header (name : String) (emit : Bool) (kind : BlockKind) :
    (header name emit).get? kind.key = none := by
  cases emit with
  | false => rfl
  | true => cases kind <;> simp [header, metadataKey, Entries.get?, BlockKind.name]

private theorem topLevel_of_mem {name : String} {emit : Bool} :
    ∀ k ∈ Entries.keys (header name emit ++ Placed.filled placed),
      k = metadataKey ∨ ∃ kind : BlockKind, k = kind.key := by
  intro k hk
  obtain ⟨e, he, rfl⟩ := List.mem_map.mp hk
  rcases List.mem_append.mp he with he | he
  · cases emit with
    | false => cases he
    | true =>
      obtain rfl := List.mem_singleton.mp he
      exact .inl rfl
  · obtain ⟨kind, -, rfl⟩ := List.mem_map.mp he
    exact .inr ⟨kind, rfl⟩

private theorem get?_filled_metadataKey : (Placed.filled placed).get? metadataKey = none := by
  refine Entries.get?_map_eq_none fun kind _ => ?_
  cases kind <;> decide

/-- The document of blocks is loaded from its own datum, with the name that its metadata state. -/
theorem load_toDatum (h : ∀ p ∈ placed, p.Shaped) (name : String) (emit : Bool)
    (naming : Naming) :
    load naming (of name (Placed.sections placed)
        (if emit then Workspace.metadata name else [])).toDatum =
      .ok (of (if emit then name else "") (Placed.sections placed)
        (if emit then Workspace.metadata name else [])) := by
  have hsections (kind : BlockKind) :
      Entries.get? (header name emit ++ Placed.filled placed) kind.key =
        (Placed.filled placed).get? kind.key := by
    rw [Entries.get?_append, get?_header, Option.none_or]
  have hmetadata : Entries.get? (header name emit ++ Placed.filled placed) metadataKey =
      if emit then some (.mapping false (Workspace.metadata name)) else none := by
    rw [Entries.get?_append, get?_filled_metadataKey, Option.or_none]
    cases emit with
    | false => rfl
    | true => simp [header, Entries.get?, metadataKey]
  have hinner : metadataIn (header name emit ++ Placed.filled placed) =
      if emit then Workspace.metadata name else [] := by
    rw [metadataIn, hmetadata]
    cases emit <;> rfl
  have hname : stackNameOf naming (if emit then Workspace.metadata name else []) =
      if emit then name else "" := by
    cases emit with
    | false => rfl
    | true => simp [stackNameOf, nameIn?, Workspace.metadata, Datum.record, Entries.get?, Datum.plain]
  rw [toDatum_of h]
  refine ofEntries_eq_ok.mpr ⟨⟨topLevel_of_mem, fun d hd => ?_, fun kind d hd => ?_⟩, ?_⟩
  · rw [hmetadata] at hd
    cases emit with
    | false => cases hd
    | true => exact ⟨_, by cases hd; rfl⟩
  · rw [hsections, Placed.get?_filled] at hd
    split at hd
    · cases hd
      exact sectionShape_sectionOf h kind
    · cases hd
  · rw [loaded, sectionsIn_eq_filled hsections, hinner, hname, Placed.sections_eq]

end Document

end Groundplan
