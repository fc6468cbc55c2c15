import Groundplan.Proofs.Heap.Tidy

/-!
# Contents of heaps

Two kinds of facts about a whole heap that every way of writing keeps: that all its containers hold
only values of one kind, and that its views show mappings that are older than themselves.
-/

namespace Groundplan

namespace Heap

variable {h : Heap} {P : Value → Prop}

/-- All that containers hold has a property. -/
def AllParts (h : Heap) (P : Value → Prop) : Prop := ∀ c, ∀ v ∈ h.parts c, P v

/-- What is reached from a value with the property has it. -/
theorem AllParts.of_reaches (hh : h.AllParts P) {v u : Value} (hv : P v) (hr : h.Reaches v u) :
    P u := by
  induction hr with
  | refl => exact hv
  | step hpart _ ih => exact ih (hh _ _ hpart)

theorem AllParts.entries (hh : h.AllParts P) {c : CellId} {es : Entries Value}
    (hes : h.entries? c = some es) : ∀ v ∈ es.values, P v := by
  intro v hv
  rw [← parts_of_entries? hes] at hv
  exact hh c v hv

theorem AllParts.alloc (hh : h.AllParts P) {cell : Cell} (hc : ∀ v ∈ h.contents cell, P v) :
    (h.alloc cell).1.AllParts P := by
  intro c v hv
  rcases mem_parts_alloc h cell hv with hv | ⟨-, hv⟩
  · exact hh c v hv
  · exact hc v hv

theorem AllParts.setEntry (hh : h.AllParts P) (id : CellId) (key : Key) {v : Value} (hv : P v) :
    (h.setEntry id key v).AllParts P := by
  intro c u hu
  rcases mem_parts_setEntry hu with hu | ⟨rfl, -⟩
  · exact hh c u hu
  · exact hv

theorem AllParts.pushItem (hh : h.AllParts P) (id : CellId) {v : Value} (hv : P v) :
    (h.pushItem id v).AllParts P := by
  intro c u hu
  rcases mem_parts_pushItem hu with hu | ⟨rfl, -⟩
  · exact hh c u hu
  · exact hv

/-- The copies made for a nested entry hold what was there before. -/
theorem AllParts.setNested (hh : h.AllParts P) (hcell : ∀ c, h.cells.size ≤ c → P (.cell c))
    (id : CellId) (segments : List String) {v : Value} (hv : P v) :
    (h.setNested id segments v).AllParts P := by
  refine setNested_induction (P := fun h' _ => h.cells.size ≤ h'.cells.size ∧ h'.AllParts P)
    (fun _ _ hP => hP.2) ?_ ?_ ⟨Nat.le_refl _, hh⟩
  · intro h' id segment _ ⟨hle, hh'⟩
    refine ⟨?_, (hh'.alloc fun u hu => ?_).setEntry id _ (hcell _ hle)⟩
    · rw [size_setEntry, size_alloc]
      exact Nat.le_succ_of_le hle
    · rcases foundAt_cases h' id segment with he | ⟨c, -, hes⟩
      · simp [contents, he, Entries.values] at hu
      · exact hh'.entries hes u hu
  · exact fun h' id segment _ ⟨_, hh'⟩ => hh'.setEntry id _ hv

/-- A view is younger than what it shows, which is a mapping or shows one. -/
def Viewing (h : Heap) : Prop :=
  ∀ ⦃id base : CellId⦄, h.cells[id]? = some (.view base) → base < id ∧ (h.entries? base).isSome

section Viewing

variable {h' : Heap}

/-- A view has entries to show. -/
theorem Viewing.isSome_entries? (hh : h.Viewing) {id base : CellId}
    (hid : h.cells[id]? = some (.view base)) : (h.entries? id).isSome := by
  obtain ⟨hlt, hes⟩ := hh hid
  rwa [entries?_of_view hid, if_pos hlt]

theorem Viewing.alloc (hh : h.Viewing) {cell : Cell}
    (hc : ∀ base, cell = .view base → base < h.cells.size ∧ (h.entries? base).isSome) :
    (h.alloc cell).1.Viewing := by
  intro id base hid
  have hlt := lt_size_of_getElem? hid
  rw [size_alloc] at hlt
  by_cases hold : id < h.cells.size
  · rw [getElem?_alloc_of_lt h cell hold] at hid
    obtain ⟨hbase, hes⟩ := hh hid
    rw [entries?_alloc h cell (Nat.lt_trans hbase hold)]
    exact ⟨hbase, hes⟩
  · have hnew : id = h.cells.size := Nat.le_antisymm (Nat.le_of_lt_succ hlt) (Nat.le_of_not_lt hold)
    rw [hnew, getElem?_alloc_size] at hid
    obtain ⟨hbase, hes⟩ := hc base (Option.some.inj hid)
    rw [hnew, entries?_alloc h cell hbase]
    exact ⟨hbase, hes⟩

/-- Setting an entry makes no view, and what shows entries goes on showing some. -/
theorem Viewing.setEntry (hh : h.Viewing) (id : CellId) (key : Key) (v : Value) :
    (h.setEntry id key v).Viewing := by
  by_cases hm : ∃ es, h.cells[id]? = some (.mapping es)
  · obtain ⟨es, hid⟩ := hm
    intro j base hj
    have hne : j ≠ id := by
      rintro rfl
      rw [getElem?_setEntry_self h j key v hid] at hj
      cases hj
    rw [getElem?_setEntry_of_ne h id key v hne] at hj
    obtain ⟨hlt, hes⟩ := hh hj
    refine ⟨hlt, ?_⟩
    by_cases hb : h.Backs id base
    · rw [(entries?_setEntry_of_backs h id key v hid hb).2]
      rfl
    · rwa [entries?_setEntry_of_not_backs h id key v hb]
  · rw [setEntry_of_not_mapping h id key v fun es he => hm ⟨es, he⟩]
    exact hh

/-- A new item of a list makes no view. -/
theorem Viewing.pushItem (hh : h.Viewing) (id : CellId) (v : Value) :
    (h.pushItem id v).Viewing := by
  intro j base hj
  have hold : h.cells[j]? = some (.view base) := by
    unfold Heap.pushItem at hj
    split at hj
    · next items hid =>
      by_cases hji : j = id
      · subst hji
        rw [getElem?_write_self hid] at hj
        cases hj
      · rwa [getElem?_write_of_ne h _ hji] at hj
    · exact hj
  rw [entries?_pushItem]
  exact hh hold

/-- The copies made for a nested entry are no views. -/
theorem Viewing.setNested (hh : h.Viewing) (id : CellId) (segments : List String)
    (v : Value) : (h.setNested id segments v).Viewing := by
  refine setNested_induction (P := fun h' _ => h'.Viewing) (fun _ _ hP => hP) ?_ ?_ hh
  · intro h' id segment _ hh'
    apply Viewing.setEntry
    apply hh'.alloc
    intro base he
    cases he
  · exact fun h' id segment _ hh' => hh'.setEntry id _ v

end Viewing

end Heap

end Groundplan
