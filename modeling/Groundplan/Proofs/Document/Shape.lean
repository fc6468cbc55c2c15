import Groundplan.Document.Loader
import Groundplan.Proofs.Sequencing
import Groundplan.Proofs.Synthesis.Layout

/-!
# The shape of documents

What a mapping must have under each kind of block to be taken for a document. The checks of the loader
pass for exactly the mappings of that shape; what is loaded then has the sections of the mapping, and
one of resources in any case.
-/

namespace Groundplan

/-- Work along a list succeeds if it does at each item. -/
theorem forM_eq_ok {α ε : Type} {f : α → Except ε Unit} {items : List α} :
    items.forM f = .ok () ↔ ∀ a ∈ items, f a = .ok () := by
  induction items with
  | nil => exact ⟨fun _ => nofun, fun _ => rfl⟩
  | cons a items ih =>
    show (f a >>= fun _ => items.forM f) = _ ↔ _
    rw [bind_eq_ok, List.forall_mem_cons, ← ih]
    exact ⟨fun ⟨_, ha, hitems⟩ => ⟨ha, hitems⟩, fun ⟨ha, hitems⟩ => ⟨(), ha, hitems⟩⟩

namespace Document

/-- What stands under a name in a section: under a type of resources or data sources the bodies by id,
under a type of providers the bodies in a sequence, under the id of an output a body with a value.
Bodies are mappings. -/
def EntryShape : BlockKind → Datum → Prop
  | .resource, d | .data, d => ∃ ids, d.entries? = some ids ∧ ∀ e ∈ ids, ∃ es, e.2.entries? = some es
  | .provider, d =>
      ∃ fixed items, d = .sequence fixed items ∧ ∀ b ∈ items, ∃ es, b.entries? = some es
  | .output, d => ∃ es, d.entries? = some es ∧ es.has (.text "value") = true

/-- A section of a kind leads from names to entries of that kind. -/
def SectionShape (kind : BlockKind) (d : Datum) : Prop :=
  ∃ es, d.entries? = some es ∧ ∀ e ∈ es, EntryShape kind e.2

/-- The entries of a mapping that is a document: metadata and sections, and nothing else. -/
structure Shape (es : Entries Datum) : Prop where
  topLevel : ∀ k ∈ es.keys, k = metadataKey ∨ ∃ kind : BlockKind, k = kind.key
  metadata : ∀ d, es.get? metadataKey = some d → ∃ inner, d.entries? = some inner
  sections : ∀ (kind : BlockKind) (d : Datum), es.get? kind.key = some d → SectionShape kind d

variable {naming : Naming}

/-! ### Checks -/

theorem requireMapping_eq_ok {block : String} {d : Datum} {es : Entries Datum} :
    requireMapping block d = .ok es ↔ d.entries? = some es := by
  cases d <;> simp [requireMapping, Datum.entries?]

private theorem checkConfigurations_eq_ok {block : String} {index : Nat} {items : List Datum} :
    checkConfigurations block index items = .ok () ↔ ∀ b ∈ items, ∃ es, b.entries? = some es := by
  induction items generalizing index with
  | nil => exact ⟨fun _ => nofun, fun _ => rfl⟩
  | cons b items ih =>
    have hitems : checkConfigurations block (index + 1) items = .ok () ↔ _ := ih
    rw [checkConfigurations, bind_eq_ok, List.forall_mem_cons, ← hitems]
    simp only [requireMapping_eq_ok, exists_and_right]

private theorem checkTyped_eq_ok {kind : BlockKind} {types : Entries Datum} :
    checkTyped naming kind types = .ok () ↔
      ∀ e ∈ types, ∃ ids, e.2.entries? = some ids ∧ ∀ e ∈ ids, ∃ es, e.2.entries? = some es := by
  rw [checkTyped, forM_eq_ok]
  refine forall₂_congr fun e _ => ?_
  show (requireMapping _ e.2 >>= _) = _ ↔ _
  simp only [bind_eq_ok, requireMapping_eq_ok]
  refine exists_congr fun ids => and_congr_right fun _ => ?_
  rw [forM_eq_ok]
  refine forall₂_congr fun e _ => ?_
  show (requireMapping _ e.2 >>= _) = _ ↔ _
  simp only [bind_eq_ok, requireMapping_eq_ok]
  exact ⟨fun ⟨es, hes, _⟩ => ⟨es, hes⟩, fun ⟨es, hes⟩ => ⟨es, hes, rfl⟩⟩

private theorem checkProviders_eq_ok {types : Entries Datum} :
    checkProviders naming types = .ok () ↔
      ∀ e ∈ types, ∃ fixed items, e.2 = .sequence fixed items ∧
        ∀ b ∈ items, ∃ es, b.entries? = some es := by
  rw [checkProviders, forM_eq_ok]
  refine forall₂_congr fun e _ => ?_
  obtain ⟨type, d⟩ := e
  cases d with
  | sequence fixed items =>
    dsimp only
    rw [checkConfigurations_eq_ok]
    simp
  | _ => simp

private theorem checkOutputs_eq_ok {outputs : Entries Datum} :
    checkOutputs naming outputs = .ok () ↔
      ∀ e ∈ outputs, ∃ es, e.2.entries? = some es ∧ es.has (.text "value") = true := by
  rw [checkOutputs, forM_eq_ok]
  refine forall₂_congr fun e _ => ?_
  show (requireMapping _ e.2 >>= _) = _ ↔ _
  simp only [bind_eq_ok, requireMapping_eq_ok]
  refine exists_congr fun es => and_congr_right fun _ => ?_
  cases es.has (.text "value") with
  | true => exact iff_of_true rfl rfl
  | false => simp

/-- A section is accepted exactly if it has the shape of its kind. -/
theorem checkSection_eq_ok {kind : BlockKind} {d : Datum} :
    checkSection naming kind d = .ok () ↔ SectionShape kind d := by
  rw [checkSection, bind_eq_ok]
  simp only [requireMapping_eq_ok]
  refine exists_congr fun es => and_congr_right fun _ => ?_
  cases kind with
  | resource | data => exact checkTyped_eq_ok
  | provider => exact checkProviders_eq_ok
  | output => exact checkOutputs_eq_ok

/-- A key that may stand at the top is that of the metadata or of a kind. -/
theorem isTopLevel_iff {k : Key} :
    isTopLevel k = true ↔ k = metadataKey ∨ ∃ kind : BlockKind, k = kind.key := by
  rw [isTopLevel, Bool.or_eq_true, List.any_eq_true]
  constructor
  · rintro (h | ⟨kind, -, h⟩)
    · exact .inl (Key.eq_text_of_same h)
    · exact .inr ⟨kind, Key.eq_text_of_same h⟩
  · rintro (rfl | ⟨kind, rfl⟩)
    · exact .inl (by decide)
    · exact .inr ⟨kind, kind.mem_all, by simp⟩

/-! ### What is loaded -/

/-- The sections that a mapping has, in the order of the kinds. -/
def sectionsIn (es : Entries Datum) (kinds : List BlockKind) : Entries Datum :=
  kinds.filterMap fun kind => (es.get? kind.key).map fun d => (kind.key, d)

private theorem sectionsIn_cons (es : Entries Datum) (kind : BlockKind) (kinds : List BlockKind) :
    sectionsIn es (kind :: kinds) =
      match es.get? kind.key with
      | none => sectionsIn es kinds
      | some d => (kind.key, d) :: sectionsIn es kinds := by
  rw [sectionsIn, List.filterMap_cons]
  cases es.get? kind.key <;> rfl

theorem get?_sectionsIn (es : Entries Datum) (kind : BlockKind) (kinds : List BlockKind) :
    (sectionsIn es kinds).get? kind.key = if kind ∈ kinds then es.get? kind.key else none := by
  induction kinds with
  | nil => rfl
  | cons k kinds ih =>
    rw [sectionsIn_cons]
    cases hk : es.get? k.key with
    | none =>
      dsimp only
      rw [ih]
      by_cases he : kind = k
      · subst he
        simp [hk]
      · simp [he]
    | some d =>
      dsimp only
      rw [Entries.get?_cons, BlockKind.same_key, ih]
      by_cases he : kind = k
      · subst he
        simp [hk]
      · simp [he]

private theorem checkedSections_eq_ok {es blocks : Entries Datum} {kinds : List BlockKind} :
    checkedSections naming es kinds = .ok blocks ↔
      (∀ kind ∈ kinds, ∀ d, es.get? kind.key = some d → SectionShape kind d) ∧
        sectionsIn es kinds = blocks := by
  induction kinds generalizing blocks with
  | nil => simp [checkedSections, sectionsIn]
  | cons kind kinds ih =>
    rw [checkedSections, sectionsIn_cons, List.forall_mem_cons]
    cases hd : es.get? kind.key with
    | none => simpa using ih
    | some d =>
      simp only [bind_eq_ok, ih, Option.some.injEq, forall_eq']
      constructor
      · rintro ⟨_, hcheck, _, ⟨hrest, rfl⟩, hblocks⟩
        exact ⟨⟨checkSection_eq_ok.mp hcheck, hrest⟩, Except.ok.inj hblocks⟩
      · rintro ⟨⟨hshape, hrest⟩, rfl⟩
        exact ⟨(), checkSection_eq_ok.mpr hshape, _, ⟨hrest, rfl⟩, rfl⟩

/-- The document that entries of the right shape are. -/
def loaded (naming : Naming) (es : Entries Datum) : Document :=
  .of (stackNameOf naming (metadataIn es)) (withResources (sectionsIn es BlockKind.all))
    (metadataIn es)

/-- A section of what is loaded is that of the mapping, or an empty one of resources. -/
theorem section?_loaded (es : Entries Datum) (kind : BlockKind) :
    (loaded naming es).section? kind =
      ((es.get? kind.key).or (if kind = .resource then some (.mapping false []) else none)).map
        Datum.freeze := by
  have hget := get?_sectionsIn es kind BlockKind.all
  rw [if_pos kind.mem_all] at hget
  have hempty : Entries.get? [(BlockKind.resource.key, Datum.mapping false [])] kind.key =
      if kind = .resource then some (.mapping false []) else none := by
    rw [Entries.get?_cons, BlockKind.same_key]
    simp only [beq_iff_eq]
    rfl
  rw [loaded, section?_of, withResources]
  split
  · next hresource =>
    rw [hget]
    by_cases hk : kind = .resource
    · subst hk
      rw [Entries.has_eq_isSome_get?, hget] at hresource
      obtain ⟨d, hd⟩ := Option.isSome_iff_exists.mp hresource
      rw [hd, Option.some_or]
    · rw [if_neg hk, Option.or_none]
  · rw [Entries.get?_append, hget, hempty]

private theorem requireMapping_metadata {es metadata : Entries Datum} :
    requireMapping "//" ((es.get? metadataKey).getD (.mapping false [])) = .ok metadata ↔
      (∀ d, es.get? metadataKey = some d → ∃ inner, d.entries? = some inner) ∧
        metadataIn es = metadata := by
  rw [requireMapping_eq_ok, metadataIn]
  cases es.get? metadataKey with
  | none => simp [Datum.entries, Datum.entries?]
  | some d =>
    simp only [Option.getD_some, Option.some.injEq, forall_eq', Datum.entries]
    cases d.entries? <;> simp

/-- Entries are loaded exactly if they have the shape of a document. -/
theorem ofEntries_eq_ok {es : Entries Datum} {doc : Document} :
    ofEntries naming es = .ok doc ↔ Shape es ∧ doc = loaded naming es := by
  have hunknown : (es.keys.filter fun k => !isTopLevel k).isEmpty = true ↔
      ∀ k ∈ es.keys, k = metadataKey ∨ ∃ kind : BlockKind, k = kind.key := by
    simp [← isTopLevel_iff]
  have hsections : (∀ kind ∈ BlockKind.all, ∀ d, es.get? kind.key = some d → SectionShape kind d) ↔
      ∀ (kind : BlockKind) (d : Datum), es.get? kind.key = some d → SectionShape kind d :=
    ⟨fun h kind => h kind kind.mem_all, fun h kind _ => h kind⟩
  have hrest : (do
        let metadata ← requireMapping "//" ((es.get? metadataKey).getD (.mapping false []))
        let blocks ← checkedSections naming es BlockKind.all
        return .of (stackNameOf naming metadata) (withResources blocks) metadata :
          Except DocumentFault Document) = .ok doc ↔
      (∀ d, es.get? metadataKey = some d → ∃ inner, d.entries? = some inner) ∧
        (∀ (kind : BlockKind) (d : Datum), es.get? kind.key = some d → SectionShape kind d) ∧
          doc = loaded naming es := by
    simp only [bind_eq_ok, requireMapping_metadata, checkedSections_eq_ok, hsections]
    constructor
    · rintro ⟨_, ⟨hmetadata, rfl⟩, _, ⟨hshape, rfl⟩, hdoc⟩
      exact ⟨hmetadata, hshape, (Except.ok.inj hdoc).symm⟩
    · rintro ⟨hmetadata, hshape, rfl⟩
      exact ⟨_, ⟨hmetadata, rfl⟩, _, ⟨hshape, rfl⟩, rfl⟩
  unfold ofEntries
  dsimp only
  split
  · next h =>
    exact hrest.trans ⟨fun ⟨hm, hs, hdoc⟩ => ⟨⟨hunknown.mp h, hm, hs⟩, hdoc⟩,
      fun ⟨hshape, hdoc⟩ => ⟨hshape.metadata, hshape.sections, hdoc⟩⟩
  · next h =>
    exact ⟨fun h => (by cases h), fun ⟨hshape, _⟩ => absurd (hunknown.mpr hshape.topLevel) h⟩

end Document

end Groundplan
