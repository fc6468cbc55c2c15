import Groundplan.Document.Query
import Groundplan.Proofs.Datum.Entries
import Groundplan.Proofs.Datum.Parts

/-!
# What predicates ask for

`Contains` is the rule by which a datum has what another asks for, `Pruned` leaves entries of mappings
out at any depth. Where keys are texts of which none comes twice, `satisfies` decides the rule.
-/

namespace Groundplan.Datum

/-- The first datum contains the second: a mapping has at least its keys, a sequence is of its length,
and an atom is of equal value, truth values apart from numbers. -/
inductive Contains : Datum → Datum → Prop
  | truth (b : Bool) : Contains (.bool b) (.bool b)
  | atom {a e : Atom} (ha : ∀ b, a ≠ .scalar (.bool b)) (he : ∀ b, e ≠ .scalar (.bool b))
      (h : a.eqValue e = true) : Contains (.atom a) (.atom e)
  | sequence {f g : Bool} {as es : List Datum} (hlength : as.length = es.length)
      (h : ∀ p ∈ as.zip es, Contains p.1 p.2) : Contains (.sequence f as) (.sequence g es)
  | mapping {f g : Bool} {as es : Entries Datum} (value : Key → Datum)
      (hmem : ∀ e ∈ es, (e.1, value e.1) ∈ as) (h : ∀ e ∈ es, Contains (value e.1) e.2) :
      Contains (.mapping f as) (.mapping g es)

/-- The second datum is what is left of the first without some entries of mappings, at any depth. -/
inductive Pruned : Datum → Datum → Prop
  | atom (a : Atom) : Pruned (.atom a) (.atom a)
  | sequence {f g : Bool} {items left : List Datum} (hlength : items.length = left.length)
      (h : ∀ p ∈ items.zip left, Pruned p.1 p.2) : Pruned (.sequence f items) (.sequence g left)
  | mapping {f g : Bool} {es left : Entries Datum} (value : Key → Datum)
      (hmem : ∀ e ∈ left, (e.1, value e.1) ∈ es) (h : ∀ e ∈ left, Pruned (value e.1) e.2) :
      Pruned (.mapping f es) (.mapping g left)

/-- All mappings in a datum are fields. -/
def AllFields (d : Datum) : Prop :=
  ∀ ⦃fixed : Bool⦄ ⦃es : Entries Datum⦄, Within (.mapping fixed es) d → es.Fields

/-- Items have what others ask for if each pair of them does. -/
theorem satisfiesItems_eq_all (as es : List Datum) :
    satisfiesItems as es = (as.zip es).all fun p => p.1.satisfies p.2 := by
  induction es generalizing as with
  | nil => simp [satisfiesItems]
  | cons e es ih =>
    cases as with
    | nil => rfl
    | cons a as => simp [satisfiesItems, ih]

/-- Entries have what others ask for if what is found under each key does. -/
theorem satisfiesEntries_eq_all (as es : Entries Datum) :
    satisfiesEntries as es = es.all fun e => ((as.get? e.1).map (·.satisfies e.2)).getD false := by
  induction es with
  | nil => rfl
  | cons e es ih =>
    obtain ⟨k, e⟩ := e
    rw [satisfiesEntries, ih, List.all_cons]
    cases as.get? k <;> rfl

private theorem satisfiesAtom_iff {a e : Atom} :
    satisfiesAtom a e = true ↔ Contains (.atom a) (.atom e) := by
  constructor
  · intro h
    unfold satisfiesAtom at h
    split at h
    · obtain rfl := beq_iff_eq.mp h
      exact .truth _
    · cases h
    · cases h
    · next ha he _ => exact .atom ha he h
  · intro h
    cases h with
    | truth b => simp [satisfiesAtom]
    | atom ha he h =>
      unfold satisfiesAtom
      split
      · exact absurd rfl (ha _)
      · exact absurd rfl (ha _)
      · exact absurd rfl (he _)
      · exact h

private theorem satisfies_sequence_iff {fixed : Bool} {actual : Datum} {es : List Datum}
    (ih : ∀ e ∈ es, ∀ a, AllFields a → (a.satisfies e = true ↔ a.Contains e))
    (hf : AllFields actual) :
    actual.satisfies (.sequence fixed es) = true ↔ actual.Contains (.sequence fixed es) := by
  cases actual with
  | sequence f as =>
    have hitem {p : Datum × Datum} (hp : p ∈ as.zip es) :
        p.1.satisfies p.2 = true ↔ p.1.Contains p.2 :=
      ih p.2 (List.of_mem_zip hp).2 p.1 fun _ _ hw => hf (.item (List.of_mem_zip hp).1 hw)
    rw [satisfies, Bool.and_eq_true, satisfiesItems_eq_all, List.all_eq_true, beq_iff_eq]
    constructor
    · rintro ⟨hlength, h⟩
      exact .sequence hlength fun p hp => (hitem hp).mp (h p hp)
    · rintro (_ | _ | ⟨hlength, h⟩)
      exact ⟨hlength, fun p hp => (hitem hp).mpr (h p hp)⟩
  | _ => exact ⟨fun h => (by cases h), fun h => (by cases h)⟩

private theorem satisfies_mapping_iff {fixed : Bool} {actual : Datum} {es : Entries Datum}
    (ih : ∀ e ∈ es, ∀ a, AllFields a → (a.satisfies e.2 = true ↔ a.Contains e.2))
    (hf : AllFields actual) :
    actual.satisfies (.mapping fixed es) = true ↔ actual.Contains (.mapping fixed es) := by
  cases actual with
  | mapping f as =>
    have hfields : Entries.Fields as := hf (.refl _)
    have hvalue {k : Key} {a : Datum} (ha : (k, a) ∈ as) {e : Key × Datum} (he : e ∈ es) :
        a.satisfies e.2 = true ↔ a.Contains e.2 :=
      ih e he a fun _ _ hw => hf (.entry ha hw)
    rw [satisfies, satisfiesEntries_eq_all, List.all_eq_true]
    constructor
    · intro h
      have hfound : ∀ e ∈ es, ∃ a, (e.1, a) ∈ as ∧ Entries.get? as e.1 = some a ∧ a.Contains e.2 := by
        intro e he
        have hsat := h e he
        cases hget : Entries.get? as e.1 with
        | none =>
          rw [hget] at hsat
          cases hsat
        | some a =>
          rw [hget] at hsat
          have ha := hfields.get?_eq_some.mp hget
          exact ⟨a, ha, rfl, (hvalue ha he).mp hsat⟩
      refine .mapping (fun k => (Entries.get? as k).getD .null) (fun e he => ?_) fun e he => ?_
      · obtain ⟨a, ha, hget, -⟩ := hfound e he
        rwa [hget]
      · obtain ⟨a, -, hget, hcontains⟩ := hfound e he
        rwa [hget]
    · rintro (_ | _ | _ | ⟨value, hmem, h⟩)
      intro e he
      rw [hfields.get?_of_mem (hmem e he)]
      exact (hvalue (hmem e he) he).mpr (h e he)
  | _ => exact ⟨fun h => (by cases h), fun h => (by cases h)⟩

/-- A datum has what another asks for exactly if it contains that. -/
theorem satisfies_iff_contains {actual expected : Datum} (hf : AllFields actual) :
    actual.satisfies expected = true ↔ actual.Contains expected := by
  induction expected using Datum.induction generalizing actual with
  | atom e =>
    cases actual with
    | atom a => exact satisfiesAtom_iff
    | _ => exact ⟨fun h => (by cases h), fun h => (by cases h)⟩
  | loop c => exact ⟨fun h => (by cases h), fun h => (by cases h)⟩
  | sequence fixed es ih => exact satisfies_sequence_iff (fun e he a ha => ih e he ha) hf
  | mapping fixed es ih => exact satisfies_mapping_iff (fun e he a ha => ih e he ha) hf

end Groundplan.Datum
