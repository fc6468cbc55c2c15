import Groundplan.Proofs.Datum.Entries
import Groundplan.Proofs.Datum.Parts

/-!
# Facts about all parts

What holds of everything in a datum holds of it and, part by part, of its containers. A change of
data that keeps containers and their keys, such as one of fixedness or of references into texts,
changes all that stands in a datum in the same way, and so keeps what is said of keys at every
depth.
-/

namespace Groundplan.Datum

/-- Everything that stands in a datum has a property. -/
def Everywhere (Q : Datum → Prop) (d : Datum) : Prop := ∀ x, Within x d → Q x

/-- The keys of a datum, if it is a mapping. -/
def keys (d : Datum) : List Key := d.entries.keys

/-- The keys of each mapping in a datum have a property. -/
def AllKeys (P : List Key → Prop) (d : Datum) : Prop := d.Everywhere fun x => P x.keys

variable {Q : Datum → Prop} {P : List Key → Prop}

/-- What a key of a mapping leads to stands in the mapping. -/
theorem within_of_field? {d x : Datum} {name : String} (h : d.field? name = some x) :
    Within x d := by
  cases d with
  | mapping fixed es => exact .entry (Entries.mem_of_get?_text h) (.refl x)
  | _ => cases h

/-- What holds everywhere in a datum holds everywhere in its parts. -/
theorem Everywhere.part {x d : Datum} (h : Everywhere Q d) (hx : Within x d) : Everywhere Q x :=
  fun y hy => h y (hy.trans hx)

theorem everywhere_sequence {fixed : Bool} {items : List Datum} :
    Everywhere Q (.sequence fixed items) ↔
      Q (.sequence fixed items) ∧ ∀ d ∈ items, Everywhere Q d := by
  constructor
  · intro h
    exact ⟨h _ (.refl _), fun d hd x hx => h x (.item hd hx)⟩
  · rintro ⟨hself, h⟩ x hx
    rcases within_sequence.mp hx with rfl | ⟨d, hd, hx⟩
    · exact hself
    · exact h d hd x hx

theorem everywhere_mapping {fixed : Bool} {es : List (Key × Datum)} :
    Everywhere Q (.mapping fixed es) ↔
      Q (.mapping fixed es) ∧ ∀ e ∈ es, Everywhere Q e.2 := by
  constructor
  · intro h
    exact ⟨h _ (.refl _), fun e he x hx => h x (.entry he hx)⟩
  · rintro ⟨hself, h⟩ x hx
    rcases within_mapping.mp hx with rfl | ⟨e, he, hx⟩
    · exact hself
    · exact h e he x hx

/-- Only mappings have keys. -/
theorem allKeys_iff_mapping (hnil : P []) {d : Datum} :
    AllKeys P d ↔ ∀ fixed (es : Entries Datum), Within (.mapping fixed es) d → P es.keys := by
  constructor
  · exact fun h fixed es hx => h _ hx
  · intro h x hx
    cases x with
    | mapping fixed es => exact h fixed es hx
    | _ => exact hnil

/-- A change that keeps containers with their keys, and changes them part by part. -/
structure Relabels (F : Datum → Datum) : Prop where
  atom : ∀ a, ∃ b, F (.atom a) = .atom b
  loop : ∀ c, F (.loop c) = .loop c
  sequence : ∀ fixed items, ∃ fixed', F (.sequence fixed items) = .sequence fixed' (items.map F)
  mapping : ∀ fixed (es : Entries Datum),
    ∃ fixed', F (.mapping fixed es) = .mapping fixed' (es.mapValues F)

/-- A change of fixedness keeps containers with their keys. -/
theorem relabels_withFixed (f : Bool) : Relabels (withFixed f) where
  atom a := ⟨a, rfl⟩
  loop _ := rfl
  sequence fixed items := ⟨f, by rw [withFixed, withFixedItems_eq_map]⟩
  mapping fixed es := ⟨f, by rw [withFixed, withFixedEntries_eq_map]; rfl⟩

namespace Relabels

variable {F : Datum → Datum} (hF : Relabels F)
include hF

/-- What stands in a changed datum is what stood in it, changed. -/
theorem within_iff {x d : Datum} : Within x (F d) ↔ ∃ y, Within y d ∧ x = F y := by
  induction d using Datum.induction with
  | atom a =>
    obtain ⟨b, hb⟩ := hF.atom a
    simp [hb]
  | loop c => simp [hF.loop c]
  | sequence fixed items ih =>
    obtain ⟨fixed', he⟩ := hF.sequence fixed items
    rw [he, within_sequence, ← he]
    constructor
    · rintro (rfl | ⟨_, hmem, hx⟩)
      · exact ⟨_, .refl _, rfl⟩
      · obtain ⟨d, hd, rfl⟩ := List.mem_map.mp hmem
        obtain ⟨y, hy, rfl⟩ := (ih d hd).mp hx
        exact ⟨y, .item hd hy, rfl⟩
    · rintro ⟨y, hy, rfl⟩
      rcases within_sequence.mp hy with rfl | ⟨d, hd, hy⟩
      · exact .inl rfl
      · exact .inr ⟨F d, List.mem_map_of_mem hd, (ih d hd).mpr ⟨y, hy, rfl⟩⟩
  | mapping fixed es ih =>
    obtain ⟨fixed', he⟩ := hF.mapping fixed es
    rw [he, within_mapping, ← he]
    constructor
    · rintro (rfl | ⟨_, hmem, hx⟩)
      · exact ⟨_, .refl _, rfl⟩
      · obtain ⟨e, hd, rfl⟩ := List.mem_map.mp hmem
        obtain ⟨y, hy, rfl⟩ := (ih e hd).mp hx
        exact ⟨y, .entry hd hy, rfl⟩
    · rintro ⟨y, hy, rfl⟩
      rcases within_mapping.mp hy with rfl | ⟨e, hd, hy⟩
      · exact .inl rfl
      · exact .inr ⟨(e.1, F e.2), List.mem_map_of_mem hd, (ih e hd).mpr ⟨y, hy, rfl⟩⟩

theorem keys_eq (d : Datum) : (F d).keys = d.keys := by
  cases d with
  | atom a =>
    obtain ⟨b, hb⟩ := hF.atom a
    rw [hb]
    rfl
  | loop c => rw [hF.loop c]
  | sequence fixed items =>
    obtain ⟨fixed', he⟩ := hF.sequence fixed items
    rw [he]
    rfl
  | mapping fixed es =>
    obtain ⟨fixed', he⟩ := hF.mapping fixed es
    rw [he]
    exact Entries.keys_mapValues F es

/-- What a name leads to is changed like all that stands in the datum. -/
theorem field?_eq (name : String) (d : Datum) : (F d).field? name = (d.field? name).map F := by
  cases d with
  | atom a =>
    obtain ⟨b, hb⟩ := hF.atom a
    rw [hb]
    rfl
  | loop c =>
    rw [hF.loop]
    rfl
  | sequence fixed items =>
    obtain ⟨fixed', he⟩ := hF.sequence fixed items
    rw [he]
    rfl
  | mapping fixed es =>
    obtain ⟨fixed', he⟩ := hF.mapping fixed es
    rw [he]
    exact Entries.get?_mapValues F es (.text name)

/-- Everything in a changed datum has a property if it has the property once changed. -/
theorem everywhere_iff {d : Datum} : Everywhere Q (F d) ↔ Everywhere (fun x => Q (F x)) d := by
  constructor
  · exact fun h x hx => h (F x) (hF.within_iff.mpr ⟨x, hx, rfl⟩)
  · intro h x hx
    obtain ⟨y, hy, rfl⟩ := hF.within_iff.mp hx
    exact h y hy

/-- The keys at every depth are kept. -/
theorem allKeys_iff {d : Datum} : AllKeys P (F d) ↔ AllKeys P d := by
  rw [AllKeys, hF.everywhere_iff]
  simp only [hF.keys_eq]
  exact .rfl

/-- A changed datum is as deep as it was. -/
theorem depth_eq (d : Datum) : (F d).depth = d.depth := by
  induction d using Datum.induction with
  | atom a =>
    obtain ⟨b, hb⟩ := hF.atom a
    rw [hb, depth, depth]
  | loop c => rw [hF.loop c]
  | sequence fixed items ih =>
    obtain ⟨fixed', he⟩ := hF.sequence fixed items
    have hle (n : Nat) : depthOfItems (items.map F) ≤ n ↔ depthOfItems items ≤ n := by
      rw [depthOfItems_le_iff, depthOfItems_le_iff, List.forall_mem_map]
      exact forall₂_congr fun d hd => by rw [ih d hd]
    rw [he, depth, depth, Nat.le_antisymm ((hle _).mpr (Nat.le_refl _)) ((hle _).mp (Nat.le_refl _))]
  | mapping fixed es ih =>
    obtain ⟨fixed', he⟩ := hF.mapping fixed es
    have hle (n : Nat) : depthOfEntries (Entries.mapValues F es) ≤ n ↔ depthOfEntries es ≤ n := by
      rw [depthOfEntries_le_iff, depthOfEntries_le_iff, Entries.mapValues, List.forall_mem_map]
      exact forall₂_congr fun e he => by rw [ih e he]
    rw [he, depth, depth, Nat.le_antisymm ((hle _).mpr (Nat.le_refl _)) ((hle _).mp (Nat.le_refl _))]

end Relabels

end Groundplan.Datum
