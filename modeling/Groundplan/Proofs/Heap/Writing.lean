import Groundplan.Proofs.Workspace.Scope

/-!
# Writing the heap

What a new container, a new entry of a mapping and a new item of a list do to the entries and parts
of every container. A mapping is seen through its views too, so an entry is set in all containers that
the written one stands behind, and in no other.
-/

namespace Groundplan

/-- A value that lies below a bound if it is a container. -/
def Value.Below (bound : Nat) : Value → Prop
  | .atom _ => True
  | .cell id => id < bound

theorem Value.Below.mono {v : Value} {m n : Nat} (hv : v.Below m) (hmn : m ≤ n) : v.Below n := by
  cases v with
  | atom a => trivial
  | cell id => exact Nat.lt_of_lt_of_le hv hmn

namespace Heap

variable {h h' : Heap}

/-- A container that is found is there. -/
theorem lt_size_of_getElem? {id : CellId} {c : Cell} (hid : h.cells[id]? = some c) :
    id < h.cells.size := by
  rcases Nat.lt_or_ge id h.cells.size with hlt | hge
  · exact hlt
  · rw [Array.getElem?_eq_none hge] at hid
    cases hid

/-- A container that is written holds what was written. -/
theorem getElem?_write_self {id : CellId} {old : Cell} (hid : h.cells[id]? = some old) (c : Cell) :
    (h.write id c).cells[id]? = some c :=
  Array.getElem?_setIfInBounds_self_of_lt (lt_size_of_getElem? hid)

theorem entries?_of_mapping {id : CellId} {es : Entries Value}
    (hid : h.cells[id]? = some (.mapping es)) : h.entries? id = some es := by
  rw [entries?, hid]

theorem entries?_of_view {id base : CellId} (hid : h.cells[id]? = some (.view base)) :
    h.entries? id = if base < id then h.entries? base else none := by
  rw [entries?, hid]

theorem parts_of_entries? {id : CellId} {es : Entries Value} (hes : h.entries? id = some es) :
    h.parts id = es.values := by
  unfold parts
  split
  · next hid => simp [entries?, hid] at hes
  · next hid => simp [entries?, hid] at hes
  · next hid =>
    rw [entries?_of_mapping hid] at hes
    cases hes
    rfl
  · rw [hes]
    rfl
  · next hid => simp [entries?, hid] at hes

/-- What stands behind a container is no younger. -/
theorem Backs.le {c id : CellId} (hb : h.Backs c id) : c ≤ id := by
  induction hb with
  | refl => exact Nat.le_refl c
  | view _ hlt _ ih => exact Nat.le_trans ih (Nat.le_of_lt hlt)

/-- Entries depend only on the containers that stand behind. -/
theorem entries?_congr {id : CellId} (hc : ∀ c, h.Backs c id → h'.cells[c]? = h.cells[c]?) :
    h'.entries? id = h.entries? id := by
  induction id using Nat.strongRecOn with
  | ind id ih =>
    rw [entries?, entries?, hc id .refl]
    split
    · rfl
    · next base hid =>
      split
      · next hlt => exact ih base hlt fun c hb => hc c (.view hid hlt hb)
      · rfl
    · rfl

/-- Parts depend only on the containers that stand behind. -/
theorem parts_congr {id : CellId} (hc : ∀ c, h.Backs c id → h'.cells[c]? = h.cells[c]?) :
    h'.parts id = h.parts id := by
  simp only [parts, entries?_congr hc, hc id .refl]

section alloc

variable (h) (cell : Cell)

@[simp] theorem size_alloc : (h.alloc cell).1.cells.size = h.cells.size + 1 := by simp [alloc]

theorem backs_alloc {c id : CellId} (hid : id < h.cells.size) (hb : h.Backs c id) :
    (h.alloc cell).1.cells[c]? = h.cells[c]? :=
  getElem?_alloc_of_lt h cell (Nat.lt_of_le_of_lt hb.le hid)

theorem entries?_alloc {id : CellId} (hid : id < h.cells.size) :
    (h.alloc cell).1.entries? id = h.entries? id :=
  entries?_congr fun _ hb => backs_alloc h cell hid hb

theorem parts_alloc {id : CellId} (hid : id < h.cells.size) :
    (h.alloc cell).1.parts id = h.parts id :=
  parts_congr fun _ hb => backs_alloc h cell hid hb

/-- What a new container holds. -/
def contents : Cell → List Value
  | .list items => items
  | .tuple items => items
  | .mapping es => es.values
  | .view base => ((h.entries? base).getD []).values

theorem getElem?_alloc_size : (h.alloc cell).1.cells[h.cells.size]? = some cell := by
  simp [alloc]

theorem entries?_alloc_mapping (es : Entries Value) :
    (h.alloc (.mapping es)).1.entries? h.cells.size = some es :=
  entries?_of_mapping (getElem?_alloc_size h _)

theorem entries?_alloc_view (base : CellId) :
    (h.alloc (.view base)).1.entries? h.cells.size =
      if base < h.cells.size then h.entries? base else none := by
  rw [entries?_of_view (getElem?_alloc_size h _)]
  split
  · next hb => exact entries?_alloc h _ hb
  · rfl

/-- A new container is the only one with new parts, and those are what it was made of. -/
theorem mem_parts_alloc {j : CellId} {u : Value} (hu : u ∈ (h.alloc cell).1.parts j) :
    u ∈ h.parts j ∨ (j = h.cells.size ∧ u ∈ h.contents cell) := by
  have hlt := lt_size_of_mem_parts hu
  rw [size_alloc] at hlt
  rcases Nat.lt_or_ge j h.cells.size with hj | hj
  · rw [parts_alloc h cell hj] at hu
    exact .inl hu
  · have hj : j = h.cells.size := Nat.le_antisymm (Nat.le_of_lt_succ hlt) hj
    subst hj
    refine .inr ⟨rfl, ?_⟩
    rw [parts, getElem?_alloc_size] at hu
    cases cell with
    | list items => exact hu
    | tuple items => exact hu
    | mapping es => exact hu
    | view base =>
      simp only [entries?_alloc_view] at hu
      split at hu
      · exact hu
      · simp [Entries.values] at hu

end alloc

/-- Entries are those of a mapping that stands behind. -/
theorem exists_mapping_of_entries? {id : CellId} {es : Entries Value}
    (hes : h.entries? id = some es) : ∃ c, h.Backs c id ∧ h.cells[c]? = some (.mapping es) := by
  induction id using Nat.strongRecOn with
  | ind id ih =>
    rw [entries?] at hes
    split at hes
    · next hid =>
      cases hes
      exact ⟨id, .refl, hid⟩
    · next base hid =>
      split at hes
      · next hlt =>
        obtain ⟨c, hb, hc⟩ := ih base hlt hes
        exact ⟨c, .view hid hlt hb, hc⟩
      · cases hes
    · cases hes

section setEntry

variable (h) (id : CellId) (key : Key) (v : Value)

@[simp] theorem size_setEntry : (h.setEntry id key v).cells.size = h.cells.size := by
  unfold setEntry
  split <;> simp [write]

theorem getElem?_setEntry_of_ne {j : CellId} (hj : j ≠ id) :
    (h.setEntry id key v).cells[j]? = h.cells[j]? := by
  unfold setEntry
  split
  · exact getElem?_write_of_ne h _ hj
  · rfl

theorem getElem?_setEntry_self {es : Entries Value} (hid : h.cells[id]? = some (.mapping es)) :
    (h.setEntry id key v).cells[id]? = some (.mapping (es.set key v)) := by
  simp only [setEntry, hid]
  exact getElem?_write_self hid _

/-- Without an open mapping nothing is set. -/
theorem setEntry_of_not_mapping (hid : ∀ es, h.cells[id]? ≠ some (.mapping es)) :
    h.setEntry id key v = h := by
  unfold setEntry
  split
  · next es hes => exact absurd hes (hid es)
  · rfl

/-- An entry is set in what the mapping stands behind. -/
theorem entries?_setEntry_of_backs {es : Entries Value} {j : CellId}
    (hid : h.cells[id]? = some (.mapping es)) (hb : h.Backs id j) :
    h.entries? j = some es ∧ (h.setEntry id key v).entries? j = some (es.set key v) := by
  induction hb with
  | refl =>
    exact ⟨entries?_of_mapping hid, entries?_of_mapping (getElem?_setEntry_self h id key v hid)⟩
  | @view base j hj hlt _ ih =>
    have hne : j ≠ id := by
      rintro rfl
      rw [hid] at hj
      cases hj
    have hj' := hj
    rw [← getElem?_setEntry_of_ne h id key v hne] at hj'
    rw [entries?_of_view hj, entries?_of_view hj', if_pos hlt, if_pos hlt]
    exact ih

/-- No entry is set in what the mapping does not stand behind. -/
theorem entries?_setEntry_of_not_backs {j : CellId} (hb : ¬ h.Backs id j) :
    (h.setEntry id key v).entries? j = h.entries? j :=
  entries?_congr fun _ hc => getElem?_setEntry_of_ne h id key v fun he => hb (he ▸ hc)

theorem parts_setEntry_of_not_backs {j : CellId} (hb : ¬ h.Backs id j) :
    (h.setEntry id key v).parts j = h.parts j :=
  parts_congr fun _ hc => getElem?_setEntry_of_ne h id key v fun he => hb (he ▸ hc)

end setEntry

end Heap

namespace Heap

variable {h : Heap}

/-- The parts of a container after an entry was set. -/
theorem mem_parts_setEntry {id j : CellId} {key : Key} {v u : Value}
    (hu : u ∈ (h.setEntry id key v).parts j) : u ∈ h.parts j ∨ (u = v ∧ h.Backs id j) := by
  by_cases hm : ∃ es, h.cells[id]? = some (.mapping es)
  · obtain ⟨es, hid⟩ := hm
    by_cases hb : h.Backs id j
    · obtain ⟨hes, hes'⟩ := entries?_setEntry_of_backs h id key v hid hb
      rw [parts_of_entries? hes'] at hu
      rw [parts_of_entries? hes]
      rcases Entries.mem_values_set hu with hu | hu
      · exact .inl hu
      · exact .inr ⟨hu, hb⟩
    · rw [parts_setEntry_of_not_backs h id key v hb] at hu
      exact .inl hu
  · rw [setEntry_of_not_mapping h id key v fun es he => hm ⟨es, he⟩] at hu
    exact .inl hu

@[simp] theorem size_pushItem (id : CellId) (v : Value) :
    (h.pushItem id v).cells.size = h.cells.size := by
  unfold pushItem
  split <;> simp [write]

/-- A list shows no entries, so a new item changes those of no container. -/
theorem entries?_pushItem (id : CellId) (v : Value) (j : CellId) :
    (h.pushItem id v).entries? j = h.entries? j := by
  unfold pushItem
  split
  · next items hid =>
    induction j using Nat.strongRecOn with
    | ind j ih =>
      by_cases hj : j = id
      · subst hj
        rw [entries?, entries?, getElem?_write_self hid, hid]
      · rw [entries?, entries?, getElem?_write_of_ne h _ hj]
        split
        · rfl
        · next base _ =>
          split
          · next hb => exact ih base hb
          · rfl
        · rfl
  · rfl

/-- A list with a new item holds that item besides. -/
theorem mem_parts_pushItem {id j : CellId} {v u : Value} (hu : u ∈ (h.pushItem id v).parts j) :
    u ∈ h.parts j ∨ (u = v ∧ j = id) := by
  by_cases hl : ∃ items, h.cells[id]? = some (.list items)
  · obtain ⟨items, hid⟩ := hl
    have hpush : h.pushItem id v = h.write id (.list (items ++ [v])) := by rw [pushItem, hid]
    by_cases hj : j = id
    · subst hj
      have hnew : (h.pushItem j v).cells[j]? = some (.list (items ++ [v])) := by
        rw [hpush]
        exact getElem?_write_self hid _
      rw [parts, hnew] at hu
      rw [parts, hid]
      rcases List.mem_append.mp hu with hu | hu
      · exact .inl hu
      · exact .inr ⟨List.mem_singleton.mp hu, rfl⟩
    · have hold : (h.pushItem id v).cells[j]? = h.cells[j]? := by
        rw [hpush]
        exact getElem?_write_of_ne h _ hj
      rw [parts, hold, entries?_pushItem] at hu
      exact .inl hu
  · have hsame : h.pushItem id v = h := by
      unfold pushItem
      split
      · next items hid => exact absurd ⟨items, hid⟩ hl
      · rfl
    rw [hsame] at hu
    exact .inl hu

/-- All containers that containers hold are there. -/
def Closed (h : Heap) : Prop := ∀ id, ∀ v ∈ h.parts id, v.Below h.cells.size

theorem Closed.alloc (hh : h.Closed) {cell : Cell}
    (hc : ∀ v ∈ h.contents cell, v.Below h.cells.size) : (h.alloc cell).1.Closed := by
  intro id v hv
  rw [size_alloc]
  rcases mem_parts_alloc h cell hv with hv | ⟨-, hv⟩
  · exact (hh id v hv).mono (Nat.le_succ _)
  · exact (hc v hv).mono (Nat.le_succ _)

theorem Closed.setEntry (hh : h.Closed) {id : CellId} {key : Key} {v : Value}
    (hv : v.Below h.cells.size) : (h.setEntry id key v).Closed := by
  intro j u hu
  rw [size_setEntry]
  rcases mem_parts_setEntry hu with hu | ⟨rfl, -⟩
  · exact hh j u hu
  · exact hv

theorem Closed.pushItem (hh : h.Closed) {id : CellId} {v : Value}
    (hv : v.Below h.cells.size) : (h.pushItem id v).Closed := by
  intro j u hu
  rw [size_pushItem]
  rcases mem_parts_pushItem hu with hu | ⟨rfl, -⟩
  · exact hh j u hu
  · exact hv

theorem Closed.entries (hh : h.Closed) {id : CellId} {es : Entries Value}
    (hes : h.entries? id = some es) : ∀ v ∈ es.values, v.Below h.cells.size := by
  intro v hv
  rw [← parts_of_entries? hes] at hv
  exact hh id v hv

end Heap

end Groundplan
