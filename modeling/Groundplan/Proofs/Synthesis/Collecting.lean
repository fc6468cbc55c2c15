import Groundplan.Proofs.Datum.Entries
import Groundplan.Proofs.Sequencing
import Groundplan.Synthesis.Basic
import Mathlib.Data.List.Induction

/-!
# Blocks in a row

Blocks enter their slots one by one, and what has been entered is all that the next one meets. The
same comes out if the blocks are kept in a row, the next one is compared with each before it, and the
sections are read off the row in the end: a type where it came first, with its blocks in order.
-/

namespace Groundplan

/-- Types are told apart by their keys. -/
@[simp] theorem Key.same_ofText? (s t : Option String) :
    (Key.ofText? s).same (Key.ofText? t) = (s == t) := by
  cases s <;> cases t <;> simp [Key.ofText?, Key.same, Scalar.same, Scalar.eqValue]

/-- Kinds are told apart by their keys. -/
@[simp] theorem BlockKind.same_key (k l : BlockKind) : k.key.same l.key = (k == l) := by
  cases k <;> cases l <;> decide

namespace Entries

variable {α : Type}

/-- What stands under a type is found under its key if the type is there. -/
theorem get?_map_ofText? (types : List (Option String)) (value : Option String → α)
    (type : Option String) :
    Entries.get? (types.map fun t => (Key.ofText? t, value t)) (Key.ofText? type) =
      if type ∈ types then some (value type) else none := by
  split
  · next ht => exact get?_map_of_mem (by simp) (by simp +contextual) ht
  · next ht =>
    refine get?_map_eq_none fun t hmem => ?_
    rw [Key.same_ofText?, beq_eq_false_iff_ne]
    rintro rfl
    exact ht hmem

/-- Setting what stands under a type changes only that. -/
theorem set_map_ofText?_of_mem {types : List (Option String)} (hnodup : types.Nodup)
    {value value' : Option String → α} {type : Option String} (ht : type ∈ types)
    (hother : ∀ t ∈ types, t ≠ type → value' t = value t) :
    Entries.set (types.map fun t => (Key.ofText? t, value t)) (Key.ofText? type) (value' type) =
      types.map fun t => (Key.ofText? t, value' t) := by
  induction types with
  | nil => cases ht
  | cons t rest ih =>
    obtain ⟨hnew, hnodup⟩ := List.nodup_cons.mp hnodup
    obtain ⟨htail, hrest⟩ := List.forall_mem_cons.mp hother
    rw [List.map_cons, List.map_cons, set, Key.same_ofText?]
    by_cases he : type = t
    · subst he
      rw [if_pos (beq_self_eq_true _)]
      refine congrArg _ (List.map_congr_left fun u hu => ?_)
      have hne : u ≠ type := fun he => hnew (he ▸ hu)
      rw [hrest u hu hne]
    · rw [if_neg (by simpa using he), ih hnodup ((List.mem_cons.mp ht).resolve_left he) hrest,
        htail (Ne.symm he)]

/-- What is set under a type that is not there yet comes last. -/
theorem set_map_ofText?_of_not_mem {types : List (Option String)} (value : Option String → α)
    {type : Option String} (ht : type ∉ types) :
    Entries.set (types.map fun t => (Key.ofText? t, value t)) (Key.ofText? type) (value type) =
      (types ++ [type]).map fun t => (Key.ofText? t, value t) := by
  rw [set_of_new, List.map_append]
  · rfl
  · intro k hk
    rw [keys, List.map_map] at hk
    obtain ⟨t, hmem, rfl⟩ := List.mem_map.mp hk
    rw [Function.comp_apply, Key.same_ofText?, beq_eq_false_iff_ne]
    rintro rfl
    exact ht hmem

end Entries

namespace Placed

/-- Whether two blocks claim one slot. -/
def clashes (p q : Placed) : Bool :=
  p.kind == q.kind &&
    match p.kind with
    | .resource | .data => p.typeTag == q.typeTag && p.id == q.id
    | .output => p.id == q.id
    | .provider => p.typeTag == q.typeTag && p.providerAlias.same q.providerAlias

/-- The types of blocks, in the order in which each came first. -/
def types (placed : List Placed) : List (Option String) := (placed.map (·.typeTag)).eraseDups

/-- The section that the blocks of a kind make up. -/
def sectionOf (kind : BlockKind) (placed : List Placed) : Datum :=
  let own := placed.filter fun p => p.kind == kind
  match kind with
  | .output => .mapping false (own.map fun p => (.text p.id, p.body))
  | .provider =>
      .mapping false ((types own).map fun type =>
        (Key.ofText? type, .list ((own.filter fun p => p.typeTag == type).map (·.body))))
  | .resource | .data =>
      .mapping false ((types own).map fun type =>
        (Key.ofText? type,
          .mapping false ((own.filter fun p => p.typeTag == type).map fun p =>
            (.text p.id, p.body))))

/-- The sections that blocks make up, in the order of the kinds and without empty ones, and resources
in any case. -/
def sections (placed : List Placed) : Entries Datum :=
  let filled := (BlockKind.all.filter fun kind => placed.any fun p => p.kind == kind).map
    fun kind => (kind.key, sectionOf kind placed)
  if placed.any fun p => p.kind == .resource then filled
  else filled ++ [(BlockKind.resource.key, .mapping false [])]

/-- The type of a further block comes last, unless it came before. -/
theorem types_append (own : List Placed) (p : Placed) :
    types (own ++ [p]) =
      if p.typeTag ∈ types own then types own else types own ++ [p.typeTag] := by
  rw [types, types, List.map_append, List.map_cons, List.map_nil, List.eraseDups_append]
  by_cases hmem : p.typeTag ∈ own.map (·.typeTag)
  · rw [if_pos (List.mem_eraseDups.mpr hmem)]
    have hnone : [p.typeTag].removeAll (own.map (·.typeTag)) = [] := by
      simpa [List.removeAll] using hmem
    rw [hnone, List.eraseDups_nil, List.append_nil]
  · rw [if_neg (mt List.mem_eraseDups.mp hmem)]
    have hone : [p.typeTag].removeAll (own.map (·.typeTag)) = [p.typeTag] := by
      simpa [List.removeAll] using hmem
    rw [hone]
    rfl

/-- No type comes twice. -/
theorem nodup_types (own : List Placed) : (types own).Nodup := by
  induction own using List.reverseRecOn with
  | nil => exact .nil
  | append_singleton rest p ih =>
    rw [types_append]
    split
    · exact ih
    · next hnew =>
      refine List.nodup_append.mpr ⟨ih, List.pairwise_singleton _ _, ?_⟩
      rintro t ht u hu rfl
      exact hnew (List.mem_singleton.mp hu ▸ ht)

/-- What the blocks of each type make up, under the types. -/
def byType {α : Type} (value : List Placed → α) (own : List Placed) : Entries α :=
  (types own).map fun type => (Key.ofText? type, value (own.filter fun p => p.typeTag == type))

/-- The bodies of blocks under their ids. -/
def byId (own : List Placed) : Entries Datum := own.map fun p => (.text p.id, p.body)

section ByType

variable {α : Type} (value : List Placed → α)

/-- What stands under the type of a block: what its blocks make up, also if there is none. -/
theorem getD_get?_byType (own : List Placed) (p : Placed) :
    ((byType value own).get? p.typeKey).getD (value []) =
      value (own.filter fun q => q.typeTag == p.typeTag) := by
  rw [byType, typeKey, Entries.get?_map_ofText?]
  split
  · rfl
  · next hnew =>
    have hnone : (own.filter fun q => q.typeTag == p.typeTag) = [] := by
      refine List.filter_eq_nil_iff.mpr fun q hq he => hnew ?_
      rw [← beq_iff_eq.mp he]
      exact List.mem_eraseDups.mpr (List.mem_map_of_mem hq)
    rw [hnone]
    rfl

/-- A further block changes what stands under its type. -/
theorem byType_append (own : List Placed) (p : Placed) :
    byType value (own ++ [p]) =
      (byType value own).set p.typeKey
        (value ((own.filter fun q => q.typeTag == p.typeTag) ++ [p])) := by
  have hown : (own ++ [p]).filter (fun q => q.typeTag == p.typeTag) =
      (own.filter fun q => q.typeTag == p.typeTag) ++ [p] := by simp [List.filter_append]
  have hother {t : Option String} (ht : t ≠ p.typeTag) :
      (own ++ [p]).filter (fun q => q.typeTag == t) = own.filter fun q => q.typeTag == t := by
    simp [List.filter_append, Ne.symm ht]
  rw [byType, byType, typeKey, types_append, ← hown]
  split
  · next hmem =>
    refine (Entries.set_map_ofText?_of_mem (nodup_types own) hmem fun t _ ht => ?_).symm
    rw [hother ht]
  · next hnew =>
    rw [← Entries.set_map_ofText?_of_not_mem _ hnew]
    refine congrArg (fun es => Entries.set es _ _) (List.map_congr_left fun t ht => ?_)
    rw [hother fun he => hnew (he ▸ ht)]

end ByType

/-- An id is present if a block has it. -/
theorem has_byId (own : List Placed) (p : Placed) :
    (byId own).has (.text p.id) = own.any fun q => p.id == q.id := by
  rw [Entries.has, byId, List.any_map]
  congr 1
  funext q
  exact Key.same_text _ _

/-- A further block with a new id comes last. -/
theorem byId_append {own : List Placed} {p : Placed} (h : (byId own).has (.text p.id) = false) :
    byId (own ++ [p]) = (byId own).set (.text p.id) p.body := by
  rw [Entries.set_of_new]
  · simp [byId]
  · rw [Entries.has_eq_any_keys] at h
    simpa using h

/-- Without blocks nothing stands under types, and only then. -/
theorem isEmpty_byType {α : Type} (value : List Placed → α) (own : List Placed) :
    (byType value own).isEmpty = own.isEmpty := by
  rw [byType, List.isEmpty_map, types]
  cases own with
  | nil => rfl
  | cons p rest => simp [List.eraseDups_cons]

/-- The sections that hold a block, in the order of the kinds. -/
def filled (placed : List Placed) : Entries Datum :=
  (BlockKind.all.filter fun kind => placed.any fun p => p.kind == kind).map
    fun kind => (kind.key, sectionOf kind placed)

/-- A section that holds a block is found under its kind, and no other. -/
theorem get?_filled (placed : List Placed) (kind : BlockKind) :
    (filled placed).get? kind.key =
      if placed.any fun p => p.kind == kind then some (sectionOf kind placed) else none := by
  split
  · next hany =>
    refine Entries.get?_map_of_mem (by simp) (fun k _ hk => ?_)
      (List.mem_filter.mpr ⟨BlockKind.mem_all kind, hany⟩)
    rw [BlockKind.same_key, beq_iff_eq] at hk
    rw [hk]
  · next hany =>
    refine Entries.get?_map_eq_none fun k hk => ?_
    rw [BlockKind.same_key, beq_eq_false_iff_ne]
    rintro rfl
    exact hany (List.mem_filter.mp hk).2

/-- The sections of a document are those that hold a block, and resources in any case. -/
theorem sections_eq (placed : List Placed) :
    sections placed = Document.withResources (filled placed) := by
  rw [Document.withResources, Entries.has_eq_isSome_get?, get?_filled, sections]
  split
  · rfl
  · rfl

end Placed

namespace Blocks

/-- The blocks of a row, each in its slot. -/
def ofRow (placed : List Placed) : Blocks where
  provider := Placed.byType (·.map (·.body)) (placed.filter fun p => p.kind == .provider)
  data := Placed.byType Placed.byId (placed.filter fun p => p.kind == .data)
  resource := Placed.byType Placed.byId (placed.filter fun p => p.kind == .resource)
  output := Placed.byId (placed.filter fun p => p.kind == .output)

variable (placed : List Placed)

/-- What a row makes up, read section by section. -/
theorem mapping_entriesOf_ofRow (kind : BlockKind) :
    Datum.mapping false ((ofRow placed).entriesOf kind) = Placed.sectionOf kind placed := by
  cases kind <;>
    simp [entriesOf, ofRow, Placed.sectionOf, Placed.byType, Placed.byId, Entries.mapValues,
      Function.comp_def]

/-- A section is empty if the row has no block of its kind. -/
theorem isEmpty_entriesOf_ofRow (kind : BlockKind) :
    (!((ofRow placed).entriesOf kind).isEmpty) = placed.any fun p => p.kind == kind := by
  have hown : (!(placed.filter fun p => p.kind == kind).isEmpty) =
      placed.any fun p => p.kind == kind := by
    rw [Bool.eq_iff_iff]
    simp [List.filter_eq_nil_iff]
  rw [← hown]
  cases kind with
  | output => simp [entriesOf, ofRow, Placed.byId]
  | provider | data | resource =>
    simp only [entriesOf, ofRow, Entries.mapValues, List.isEmpty_map, Placed.isEmpty_byType]

/-- The sections of a row of blocks are those that are read off it. -/
theorem emitted_ofRow : (ofRow placed).emitted = Placed.sections placed := by
  rw [Placed.sections_eq, emitted, Placed.filled]
  simp only [mapping_entriesOf_ofRow, isEmpty_entriesOf_ofRow]

end Blocks

namespace Workspace

variable (w : Workspace) (stack : NodeId)

/-- Why a block cannot take its slot: an earlier one has it, or, if it is a provider, the alias. -/
def takenFault (placed : Placed) : SynthesisFault :=
  if placed.kind = .provider then w.aliasFault placed
  else .slotTaken (w.path placed.node) placed.id

/-- Resolves a node that is no group and lets it take its slot after those before it. -/
def placeBlock (before : List Placed) (n : NodeId) : Except SynthesisFault Placed := do
  let placed ← w.resolveBlock stack n
  if before.any placed.clashes then throw (w.takenFault placed)
  return placed

/-- The blocks of a stack in order, each in its slot. -/
def placeAll : Except SynthesisFault (List Placed) :=
  (w.blockNodes stack).foldlM (fun before n => do
    return before ++ [← w.placeBlock stack before n]) []

section TakeSlot

variable (own before : List Placed) (p : Placed)

private theorem claimId_byId :
    w.claimId p (Placed.byId own) =
      if own.any (fun q => p.id == q.id) then .error (.slotTaken (w.path p.node) p.id)
      else .ok (Placed.byId (own ++ [p])) := by
  rw [claimId, Placed.has_byId]
  split
  · rfl
  · next hnew => rw [Placed.byId_append (by rw [Placed.has_byId]; simpa using hnew)]

private theorem claimOfType_byType :
    w.claimOfType p (Placed.byType Placed.byId own) =
      if own.any (fun q => p.typeTag == q.typeTag && p.id == q.id) then
        .error (.slotTaken (w.path p.node) p.id)
      else .ok (Placed.byType Placed.byId (own ++ [p])) := by
  have hslot := Placed.getD_get?_byType Placed.byId own p
  rw [Placed.byId, List.map_nil] at hslot
  simp only [claimOfType, hslot, claimId_byId, List.any_filter, Placed.byType_append,
    BEq.comm (a := p.typeTag)]
  split <;> rfl

private theorem configureProvider_byType :
    w.configureProvider p (Placed.byType (·.map (·.body)) own) =
      if own.any (fun q => p.typeTag == q.typeTag && p.providerAlias.same q.providerAlias) then
        .error (w.aliasFault p)
      else .ok (Placed.byType (·.map (·.body)) (own ++ [p])) := by
  have hconfigs := Placed.getD_get?_byType (·.map (·.body)) own p
  rw [List.map_nil] at hconfigs
  simp only [configureProvider, hconfigs, List.any_map, List.any_filter, Placed.byType_append,
    List.map_append, List.map_cons, List.map_nil, BEq.comm (a := p.typeTag)]
  rfl

private theorem any_clashes {slot : Placed → Bool}
    (h : ∀ q, p.clashes q = (p.kind == q.kind && slot q)) :
    before.any p.clashes = (before.filter fun q => q.kind == p.kind).any slot := by
  rw [List.any_filter]
  congr 1
  funext q
  rw [h, BEq.comm]

/-- A block that takes its slot comes last in the row, and finds it taken if it clashes with one
before it. -/
theorem takeSlot_ofRow :
    w.takeSlot (Blocks.ofRow before) p =
      if before.any p.clashes then .error (w.takenFault p)
      else .ok (Blocks.ofRow (before ++ [p])) := by
  obtain ⟨node, kind, typeTag, id, body⟩ := p
  cases kind with
  | resource | data | output | provider =>
    rw [any_clashes before _ fun _ => rfl]
    simp only [takeSlot, Blocks.ofRow, claimOfType_byType, claimId_byId, configureProvider_byType,
      List.filter_append]
    split
    · rfl
    · simp [bind, Except.bind, pure, Except.pure]

end TakeSlot

/-- A block that is resolved takes its slot, unless it clashes with one before it. -/
theorem placeBlock_of_resolveBlock {stack n : NodeId} {p : Placed}
    (h : w.resolveBlock stack n = .ok p) (before : List Placed) :
    w.placeBlock stack before n =
      if before.any p.clashes then .error (w.takenFault p) else .ok p := by
  rw [placeBlock, h]
  rfl

/-- From blocks in a row on, entering the next ones gives what the longer row makes up. -/
private theorem foldlM_takeSlot (nodes : List NodeId) (before : List Placed) :
    nodes.foldlM (fun blocks n => do w.takeSlot blocks (← w.resolveBlock stack n))
        (Blocks.ofRow before) =
      (nodes.foldlM (fun before n => do return before ++ [← w.placeBlock stack before n])
        before).map Blocks.ofRow := by
  induction nodes generalizing before with
  | nil => rfl
  | cons n nodes ih =>
    rw [List.foldlM_cons, List.foldlM_cons]
    cases hp : w.resolveBlock stack n with
    | error f =>
      rw [placeBlock, hp]
      rfl
    | ok p =>
      have hstep : (do w.takeSlot (Blocks.ofRow before) (← Except.ok p)) =
          if before.any p.clashes then .error (w.takenFault p)
          else .ok (Blocks.ofRow (before ++ [p])) := takeSlot_ofRow w before p
      rw [hstep, w.placeBlock_of_resolveBlock hp]
      split
      · rfl
      · exact ih (before ++ [p])

/-- The blocks of a stack are collected as those of a row. -/
theorem collect_eq : w.collect stack = (w.placeAll stack).map Blocks.ofRow :=
  foldlM_takeSlot w stack _ []

/-- A document is made of the sections of its blocks in a row. -/
theorem documentOf_eq (emit : Bool) :
    w.documentOf stack emit = (do
      let placed ← w.placeAll stack
      match References.cycle? (w.referenceGraph stack) with
      | some cycle => throw (.cycle (cycle.map w.path))
      | none =>
          let name := (w.node stack).id
          return .of name (Placed.sections placed) (if emit then metadata name else [])) := by
  rw [documentOf, collect_eq]
  cases w.placeAll stack with
  | error f => rfl
  | ok placed =>
    cases References.cycle? (w.referenceGraph stack) with
    | some c => rfl
    | none => simp only [Except.map, Blocks.emitted_ofRow, bind, Except.bind]

end Workspace

end Groundplan
