import Groundplan.Proofs.Synthesis.Resolution

/-!
# Places in data

A place is a way down through items and entries by their positions. What stands in a datum stands at
some place of it. Setting tokens and fixing containers change what stands at a place and no place.
-/

namespace Groundplan.Datum

/-- What stands at a place: down from a container to the item or entry at each position in turn. -/
def part? : List Nat → Datum → Option Datum
  | [], d => some d
  | i :: place, .sequence _ items => items[i]?.bind (part? place)
  | i :: place, .mapping _ es => es[i]?.bind fun e => part? place e.2
  | _ :: _, _ => none

/-- What stands in a datum is what stands at its places. -/
theorem within_iff_exists_part? {x d : Datum} : Within x d ↔ ∃ place, d.part? place = some x := by
  constructor
  · intro h
    induction h with
    | refl => exact ⟨[], rfl⟩
    | item hd _ ih =>
      obtain ⟨place, hplace⟩ := ih
      obtain ⟨i, hi⟩ := List.getElem?_of_mem hd
      exact ⟨i :: place, by rw [part?, hi, Option.bind_some, hplace]⟩
    | entry he _ ih =>
      obtain ⟨place, hplace⟩ := ih
      obtain ⟨i, hi⟩ := List.getElem?_of_mem he
      exact ⟨i :: place, by rw [part?, hi, Option.bind_some, hplace]⟩
  · rintro ⟨place, h⟩
    induction place generalizing d with
    | nil =>
      cases h
      exact .refl _
    | cons i place ih =>
      cases d with
      | atom a => cases h
      | loop c => cases h
      | sequence fixed items =>
        obtain ⟨e, he, h⟩ := Option.bind_eq_some_iff.mp h
        exact .item (List.mem_of_getElem? he) (ih h)
      | mapping fixed es =>
        obtain ⟨e, he, h⟩ := Option.bind_eq_some_iff.mp h
        exact .entry (List.mem_of_getElem? he) (ih h)

/-- Tokens are set place by place. -/
theorem part?_withTokens (token : Reference → String) (place : List Nat) (d : Datum) :
    (d.withTokens token).part? place = (d.part? place).map (withTokens token) := by
  induction place generalizing d with
  | nil => rfl
  | cons i place ih =>
    cases d with
    | atom a => cases a <;> rfl
    | loop c => rfl
    | sequence fixed items =>
      rw [withTokens, withTokensItems_eq_map, part?, part?, List.getElem?_map]
      cases items[i]? with
      | none => rfl
      | some d => exact ih d
    | mapping fixed es =>
      rw [withTokens, withTokensEntries_eq_map, part?, part?, List.getElem?_map]
      cases es[i]? with
      | none => rfl
      | some e => exact ih e.2

/-- Containers are fixed place by place. -/
theorem part?_withFixed (fixed : Bool) (place : List Nat) (d : Datum) :
    (d.withFixed fixed).part? place = (d.part? place).map (withFixed fixed) := by
  induction place generalizing d with
  | nil => rfl
  | cons i place ih =>
    cases d with
    | atom a => rfl
    | loop c => rfl
    | sequence f items =>
      rw [withFixed, withFixedItems_eq_map, part?, part?, List.getElem?_map]
      cases items[i]? with
      | none => rfl
      | some d => exact ih d
    | mapping f es =>
      rw [withFixed, withFixedEntries_eq_map, part?, part?, List.getElem?_map]
      cases es[i]? with
      | none => rfl
      | some e => exact ih e.2

end Groundplan.Datum
