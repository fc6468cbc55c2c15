import Groundplan.Datum.Basic

/-!
# Parts of data

`Within` is the relation of a datum to everything that stands in it at any depth, itself included. A
datum is free of loops if no loop stands in it; such a datum is a finite value read to the end.
-/

namespace Groundplan.Datum

/-- Induction over a datum through the items and entries of its containers. -/
@[elab_as_elim]
theorem induction {motive : Datum → Prop} (atom : ∀ a, motive (.atom a))
    (loop : ∀ c, motive (.loop c))
    (sequence : ∀ fixed items, (∀ d ∈ items, motive d) → motive (.sequence fixed items))
    (mapping : ∀ fixed es, (∀ e ∈ es, motive e.2) → motive (.mapping fixed es)) :
    ∀ d, motive d
  | .atom a => atom a
  | .loop c => loop c
  | .sequence fixed items =>
      sequence fixed items fun d _ => induction atom loop sequence mapping d
  | .mapping fixed es =>
      mapping fixed es fun e he => by
        have := List.sizeOf_lt_of_mem he
        have : sizeOf e.2 < sizeOf e := by
          obtain ⟨k, d⟩ := e
          show sizeOf d < sizeOf (k, d)
          rw [Prod.mk.sizeOf_spec]
          omega
        exact induction atom loop sequence mapping e.2
  termination_by d => sizeOf d

/-- The first datum stands in the second at some depth. -/
inductive Within : Datum → Datum → Prop
  | refl (d : Datum) : Within d d
  | item {x d : Datum} {fixed : Bool} {items : List Datum} (hd : d ∈ items) (hx : Within x d) :
      Within x (.sequence fixed items)
  | entry {x : Datum} {e : Key × Datum} {fixed : Bool} {es : List (Key × Datum)} (he : e ∈ es)
      (hx : Within x e.2) : Within x (.mapping fixed es)

/-- No loop stands in the datum. -/
def LoopFree (d : Datum) : Prop := ∀ c, ¬ Within (.loop c) d

/-- Nothing but itself stands in an atom. -/
@[simp] theorem within_atom {x : Datum} {a : Atom} : Within x (.atom a) ↔ x = .atom a := by
  constructor
  · rintro ⟨⟩
    rfl
  · rintro rfl
    exact .refl _

/-- Nothing but itself stands in a loop. -/
@[simp] theorem within_loop {x : Datum} {c : Container} : Within x (.loop c) ↔ x = .loop c := by
  constructor
  · rintro ⟨⟩
    rfl
  · rintro rfl
    exact .refl _

/-- What stands in a sequence is the sequence or stands in one of its items. -/
theorem within_sequence {x : Datum} {fixed : Bool} {items : List Datum} :
    Within x (.sequence fixed items) ↔
      x = .sequence fixed items ∨ ∃ d ∈ items, Within x d := by
  constructor
  · intro h
    cases h with
    | refl => exact .inl rfl
    | item hd hx => exact .inr ⟨_, hd, hx⟩
  · rintro (rfl | ⟨d, hd, hx⟩)
    · exact .refl _
    · exact .item hd hx

/-- What stands in a mapping is the mapping or stands in what one of its keys leads to. -/
theorem within_mapping {x : Datum} {fixed : Bool} {es : List (Key × Datum)} :
    Within x (.mapping fixed es) ↔
      x = .mapping fixed es ∨ ∃ e ∈ es, Within x e.2 := by
  constructor
  · intro h
    cases h with
    | refl => exact .inl rfl
    | entry he hx => exact .inr ⟨_, he, hx⟩
  · rintro (rfl | ⟨e, he, hx⟩)
    · exact .refl _
    · exact .entry he hx

/-- What stands in a part stands in the whole. -/
theorem Within.trans {x y d : Datum} (hxy : Within x y) (hyd : Within y d) : Within x d := by
  induction hyd with
  | refl => exact hxy
  | item hd _ ih => exact .item hd ih
  | entry he _ ih => exact .entry he ih

/-- Items are no deeper than the deepest of them. -/
theorem depthOfItems_le_iff {n : Nat} {items : List Datum} :
    depthOfItems items ≤ n ↔ ∀ d ∈ items, d.depth ≤ n := by
  induction items with
  | nil => simp [depthOfItems]
  | cons d ds ih => rw [depthOfItems, Nat.max_le, ih, List.forall_mem_cons]

/-- What keys lead to is no deeper than the deepest of it. -/
theorem depthOfEntries_le_iff {n : Nat} {es : List (Key × Datum)} :
    depthOfEntries es ≤ n ↔ ∀ e ∈ es, e.2.depth ≤ n := by
  induction es with
  | nil => simp [depthOfEntries]
  | cons e es ih => rw [depthOfEntries, Nat.max_le, ih, List.forall_mem_cons]

/-- An atom is free of loops. -/
@[simp] theorem loopFree_atom (a : Atom) : LoopFree (.atom a) := by
  intro c
  simp

/-- A loop is not free of loops. -/
@[simp] theorem not_loopFree_loop (c : Container) : ¬ LoopFree (.loop c) := fun h =>
  h c (.refl _)

/-- A sequence is free of loops if its items are. -/
@[simp] theorem loopFree_sequence {fixed : Bool} {items : List Datum} :
    LoopFree (.sequence fixed items) ↔ ∀ d ∈ items, LoopFree d := by
  simp only [LoopFree, within_sequence, reduceCtorEq, false_or, not_exists, not_and]
  exact ⟨fun h d hd c => h c d hd, fun h c d hd => h d hd c⟩

/-- A mapping is free of loops if all its keys lead to are. -/
@[simp] theorem loopFree_mapping {fixed : Bool} {es : List (Key × Datum)} :
    LoopFree (.mapping fixed es) ↔ ∀ e ∈ es, LoopFree e.2 := by
  simp only [LoopFree, within_mapping, reduceCtorEq, false_or, not_exists, not_and]
  exact ⟨fun h e he c => h c e he, fun h c e he => h e he c⟩

end Groundplan.Datum
