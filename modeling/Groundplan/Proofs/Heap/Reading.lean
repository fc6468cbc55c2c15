import Groundplan.Proofs.Heap.Containment

/-!
# Reading the heap

What `datum` makes of a value: a loop stands in it exactly if the value reaches a container that
contains itself, and every atom and every container that the value reaches is shown in it, whether or
not containers were passed over on the way. The list `inside` of a reading holds the containers on
the path of descent; it never repeats, so the fuel of a reading always lasts.
-/

namespace Groundplan.Heap

variable {h : Heap}

/-- The state of a reading on its way to `v`: the containers it is inside of, each with a part that
reaches `v`, and enough fuel for all others. -/
structure OnPath (h : Heap) (fuel : Nat) (inside : List CellId) (v : Value) : Prop where
  nodup : inside.Nodup
  bound : ∀ id ∈ inside, id < h.cells.size
  fuel_eq : fuel + inside.length = h.cells.size + 1
  above : ∀ id ∈ inside, ∃ p ∈ h.parts id, h.Reaches p v

theorem onPath_start (v : Value) : OnPath h (h.cells.size + 1) [] v :=
  ⟨List.nodup_nil, by simp, rfl, by simp⟩

private theorem length_le_of_nodup_of_lt {n : Nat} {l : List Nat} (hl : l.Nodup)
    (hn : ∀ i ∈ l, i < n) : l.length ≤ n := by
  have hsub : l ⊆ List.range n := fun i hi => List.mem_range.mpr (hn i hi)
  have hle := hl.length_le_of_subset hsub
  rwa [List.length_range] at hle

/-- The fuel lasts. -/
theorem OnPath.fuel_ne_zero {fuel : Nat} {inside : List CellId} {v : Value}
    (hp : OnPath h fuel inside v) : fuel ≠ 0 := by
  have hle := length_le_of_nodup_of_lt hp.nodup hp.bound
  have heq := hp.fuel_eq
  omega

/-- Going down into a part of a container that was not met before. -/
theorem OnPath.down {fuel : Nat} {inside : List CellId} {id : CellId} {v : Value}
    (hp : OnPath h (fuel + 1) inside (.cell id)) (hid : id ∉ inside) (hv : v ∈ h.parts id) :
    OnPath h fuel (id :: inside) v where
  nodup := List.nodup_cons.mpr ⟨hid, hp.nodup⟩
  bound := by
    intro i hi
    rcases List.mem_cons.mp hi with rfl | hi
    · exact lt_size_of_mem_parts hv
    · exact hp.bound i hi
  fuel_eq := by
    have heq := hp.fuel_eq
    simp only [List.length_cons]
    omega
  above := by
    intro i hi
    rcases List.mem_cons.mp hi with rfl | hi
    · exact ⟨v, hv, .refl v⟩
    · obtain ⟨p, hpi, hr⟩ := hp.above i hi
      exact ⟨p, hpi, hr.trans (.part hv)⟩

private theorem selfContaining_of_loop_within_read {c : Container} :
    ∀ {fuel : Nat} {inside : List CellId} {v : Value}, OnPath h fuel inside v →
      Datum.Within (.loop c) (h.read fuel inside v) →
      ∃ id, h.Reaches v (.cell id) ∧ h.SelfContaining id := by
  intro fuel
  induction fuel with
  | zero =>
    intro inside v hp _
    exact absurd rfl hp.fuel_ne_zero
  | succ fuel ih =>
    intro inside v hp hc
    cases v with
    | atom a => simp at hc
    | cell id =>
      rw [read_cell_succ] at hc
      split at hc
      · next hid => exact ⟨id, .refl _, hp.above id hid⟩
      · next hid =>
        rcases within_layer.mp hc with he | ⟨v, hv, hc⟩
        · exact absurd he.symm layer_ne_loop
        · obtain ⟨i, hr, hi⟩ := ih (hp.down hid hv) hc
          exact ⟨i, .step hv hr, hi⟩

private theorem not_selfContaining_of_loopFree_read :
    ∀ {fuel : Nat} {inside : List CellId} {v : Value}, (h.read fuel inside v).LoopFree →
      ∀ id, h.Reaches v (.cell id) → ¬ h.SelfContaining id := by
  intro fuel
  induction fuel with
  | zero =>
    intro inside v hl id hr
    cases v with
    | atom a => cases hr
    | cell i => exact absurd hl (Datum.not_loopFree_loop _)
  | succ fuel ih =>
    intro inside v hl id hr hs
    cases v with
    | atom a => cases hr
    | cell i =>
      rw [read_cell_succ] at hl
      split at hl
      · exact Datum.not_loopFree_loop _ hl
      · next hi =>
        rw [loopFree_layer] at hl
        rcases reaches_cell_iff.mp hr with he | ⟨v, hv, hr⟩
        · -- the container itself: it would be reached again from one of its parts
          cases he
          obtain ⟨p, hp, hr⟩ := hs
          exact ih (hl p hp) _ hr ⟨p, hp, hr⟩
        · exact ih (hl v hv) id hr hs

/-- A value reads without loops exactly if nothing that it reaches contains itself. -/
theorem loopFree_datum_iff {v : Value} :
    (h.datum v).LoopFree ↔ ∀ id, h.Reaches v (.cell id) → ¬ h.SelfContaining id := by
  constructor
  · intro hl
    exact not_selfContaining_of_loopFree_read hl
  · intro hn c hc
    obtain ⟨id, hr, hs⟩ := selfContaining_of_loop_within_read (onPath_start v) hc
    exact hn id hr hs

/-- The second value is reached from the first through containers other than those listed. -/
private inductive ReachesOutside (h : Heap) (inside : List CellId) : Value → Value → Prop
  | atom (a : Atom) : ReachesOutside h inside (.atom a) (.atom a)
  | cell {id : CellId} (hid : id ∉ inside) : ReachesOutside h inside (.cell id) (.cell id)
  | step {id : CellId} {v u : Value} (hid : id ∉ inside) (hv : v ∈ h.parts id)
      (hu : ReachesOutside h inside v u) : ReachesOutside h inside (.cell id) u

private theorem Reaches.outside_nil {v u : Value} (hu : h.Reaches v u) :
    ReachesOutside h [] v u := by
  induction hu with
  | refl v =>
    cases v with
    | atom a => exact .atom a
    | cell id => exact .cell List.not_mem_nil
  | step hv _ ih => exact .step List.not_mem_nil hv ih

/-- A way either avoids a container, ends in it, or goes on from its last visit there. -/
private theorem ReachesOutside.cases_last_visit {inside : List CellId} {v u : Value}
    (hu : ReachesOutside h inside v u) (id : CellId) :
    ReachesOutside h (id :: inside) v u ∨ u = .cell id ∨
      ∃ p ∈ h.parts id, ReachesOutside h (id :: inside) p u := by
  induction hu with
  | atom a => exact .inl (.atom a)
  | @cell i hi =>
    by_cases he : i = id
    · exact .inr (.inl (by rw [he]))
    · exact .inl (.cell (by simp [he, hi]))
  | @step i v u hi hv _ ih =>
    rcases ih with ih | ih | ih
    · by_cases he : i = id
      · subst he
        exact .inr (.inr ⟨v, hv, ih⟩)
      · exact .inl (.step (by simp [he, hi]) hv ih)
    · exact .inr (.inl ih)
    · exact .inr (.inr ih)

/-- Where a value is shown in a datum: an atom as itself, a container as one layer of it. -/
def Shows (h : Heap) (d : Datum) : Value → Prop
  | .atom a => Datum.Within (.atom a) d
  | .cell id => ∃ f, Datum.Within (h.layer id f) d

private theorem Shows.of_part {id : CellId} {f : Value → Datum} {v u : Value}
    (hv : v ∈ h.parts id) (hu : h.Shows (f v) u) : h.Shows (h.layer id f) u := by
  cases u with
  | atom a => exact within_layer.mpr (.inr ⟨v, hv, hu⟩)
  | cell i =>
    obtain ⟨g, hg⟩ := hu
    exact ⟨g, within_layer.mpr (.inr ⟨v, hv, hg⟩)⟩

private theorem shows_read_of_outside :
    ∀ {fuel : Nat} {inside : List CellId} {v u : Value}, OnPath h fuel inside v →
      ReachesOutside h inside v u → h.Shows (h.read fuel inside v) u := by
  intro fuel
  induction fuel with
  | zero =>
    intro inside v u hp _
    exact absurd rfl hp.fuel_ne_zero
  | succ fuel ih =>
    intro inside v u hp hu
    cases v with
    | atom a =>
      cases hu
      exact .refl _
    | cell id =>
      have hid : id ∉ inside := by cases hu <;> assumption
      rw [read_cell_succ, if_neg hid]
      -- a way that comes back to `id` is replaced by what follows the last visit
      rcases hu.cases_last_visit id with hu | rfl | ⟨p, hp', hu⟩
      · cases hu with
        | cell hid' => exact absurd List.mem_cons_self hid'
        | step hid' => exact absurd List.mem_cons_self hid'
      · exact ⟨_, .refl _⟩
      · exact .of_part hp' (ih (hp.down hid hp') hu)

/-- Everything that a value reaches is shown in what it reads as. -/
theorem shows_datum_of_reaches {v u : Value} (hu : h.Reaches v u) : h.Shows (h.datum v) u :=
  shows_read_of_outside (onPath_start v) hu.outside_nil

/-- What stands in a reading is a loop, an atom that is reached or a layer of a container that is. -/
theorem within_read {x : Datum} {fuel : Nat} {inside : List CellId} {v : Value}
    (hx : Datum.Within x (h.read fuel inside v)) :
    (∃ c, x = .loop c) ∨ (∃ a, x = .atom a ∧ h.Reaches v (.atom a)) ∨
      ∃ id f, x = h.layer id f ∧ h.Reaches v (.cell id) := by
  induction fuel generalizing inside v with
  | zero =>
    cases v with
    | atom a => exact .inr (.inl ⟨a, by simpa using hx, .refl _⟩)
    | cell id => exact .inl ⟨_, Datum.within_loop.mp hx⟩
  | succ fuel ih =>
    cases v with
    | atom a => exact .inr (.inl ⟨a, by simpa using hx, .refl _⟩)
    | cell id =>
      rw [read_cell_succ] at hx
      split at hx
      · exact .inl ⟨_, Datum.within_loop.mp hx⟩
      · rcases within_layer.mp hx with rfl | ⟨v, hv, hx⟩
        · exact .inr (.inr ⟨id, _, rfl, .refl _⟩)
        · rcases ih hx with hl | ⟨a, rfl, ha⟩ | ⟨i, f, rfl, hi⟩
          · exact .inl hl
          · exact .inr (.inl ⟨a, rfl, .step hv ha⟩)
          · exact .inr (.inr ⟨i, f, rfl, .step hv hi⟩)

end Groundplan.Heap
