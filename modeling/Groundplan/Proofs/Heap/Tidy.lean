import Groundplan.Proofs.Datum.Sameness
import Groundplan.Proofs.Heap.Writing
import Groundplan.Workspace.Builder

/-!
# Tidy heaps

A heap is tidy if all that its containers hold is there and no mapping has a key twice.
Every way of writing keeps a heap tidy. It also keeps every mapping one that has all keys it had.
-/

namespace Groundplan

namespace Heap

variable {h h' h'' : Heap}

/-- All that containers hold is there, and no mapping has a key twice. -/
structure Tidy (h : Heap) : Prop where
  closed : h.Closed
  distinct : ∀ {c : CellId} {es : Entries Value}, h.cells[c]? = some (.mapping es) → es.Distinct

/-- No container is lost, and mappings stay mappings and have all keys that they had. -/
structure Extends (h h' : Heap) : Prop where
  size_le : h.cells.size ≤ h'.cells.size
  mapping : ∀ {c : CellId} {es : Entries Value}, h.cells[c]? = some (.mapping es) →
    ∃ es', h'.cells[c]? = some (.mapping es') ∧ ∀ k, es.has k = true → es'.has k = true

@[refl] theorem Extends.refl (h : Heap) : h.Extends h :=
  ⟨Nat.le_refl _, fun hc => ⟨_, hc, fun _ hk => hk⟩⟩

theorem Extends.trans (h₁ : h.Extends h') (h₂ : h'.Extends h'') : h.Extends h'' where
  size_le := Nat.le_trans h₁.size_le h₂.size_le
  mapping hc := by
    obtain ⟨es', hc', hk'⟩ := h₁.mapping hc
    obtain ⟨es'', hc'', hk''⟩ := h₂.mapping hc'
    exact ⟨es'', hc'', fun k hk => hk'' k (hk' k hk)⟩

theorem Tidy.entries (hh : h.Tidy) {id : CellId} {es : Entries Value}
    (hes : h.entries? id = some es) : es.Distinct := by
  obtain ⟨c, -, hc⟩ := exists_mapping_of_entries? hes
  exact hh.distinct hc

theorem Tidy.alloc (hh : h.Tidy) {cell : Cell}
    (hc : ∀ v ∈ h.contents cell, v.Below h.cells.size)
    (hdistinct : ∀ es, cell = .mapping es → es.Distinct) : (h.alloc cell).1.Tidy where
  closed := hh.closed.alloc hc
  distinct := by
    intro c es hes
    have hlt := lt_size_of_getElem? hes
    rw [size_alloc] at hlt
    rcases Nat.lt_or_ge c h.cells.size with hc | hc
    · rw [getElem?_alloc_of_lt h cell hc] at hes
      exact hh.distinct hes
    · have hc : c = h.cells.size := Nat.le_antisymm (Nat.le_of_lt_succ hlt) hc
      subst hc
      rw [getElem?_alloc_size] at hes
      cases hes
      exact hdistinct es rfl

theorem extends_alloc (h : Heap) (cell : Cell) : h.Extends (h.alloc cell).1 where
  size_le := by
    rw [size_alloc]
    exact Nat.le_succ _
  mapping {c es} hc := by
    refine ⟨es, ?_, fun _ hk => hk⟩
    rw [getElem?_alloc_of_lt h cell (lt_size_of_getElem? hc)]
    exact hc

theorem Tidy.setEntry (hh : h.Tidy) {id : CellId} {key : Key} {v : Value}
    (hv : v.Below h.cells.size) : (h.setEntry id key v).Tidy where
  closed := hh.closed.setEntry hv
  distinct := by
    intro c es hes
    by_cases hm : ∃ old, h.cells[id]? = some (.mapping old)
    · obtain ⟨old, hid⟩ := hm
      by_cases hc : c = id
      · subst hc
        rw [getElem?_setEntry_self h c key v hid] at hes
        cases hes
        exact (hh.distinct hid).set key v
      · rw [getElem?_setEntry_of_ne h id key v hc] at hes
        exact hh.distinct hes
    · rw [setEntry_of_not_mapping h id key v fun old he => hm ⟨old, he⟩] at hes
      exact hh.distinct hes

theorem extends_setEntry (h : Heap) (id : CellId) (key : Key) (v : Value) :
    h.Extends (h.setEntry id key v) where
  size_le := Nat.le_of_eq (size_setEntry ..).symm
  mapping {c es} hc := by
    by_cases hne : c = id
    · subst hne
      exact ⟨_, getElem?_setEntry_self h c key v hc, fun _ hk => Entries.has_set hk⟩
    · refine ⟨es, ?_, fun _ hk => hk⟩
      rw [getElem?_setEntry_of_ne h id key v hne]
      exact hc

/-- Pushing an item changes no mapping. -/
theorem getElem?_pushItem_of_mapping {id c : CellId} {v : Value} {es : Entries Value} :
    (h.pushItem id v).cells[c]? = some (.mapping es) ↔ h.cells[c]? = some (.mapping es) := by
  unfold pushItem
  split
  · next items hid =>
    by_cases hc : c = id
    · subst hc
      rw [getElem?_write_self hid, hid]
      simp
    · rw [getElem?_write_of_ne h _ hc]
  · rfl

theorem Tidy.pushItem (hh : h.Tidy) {id : CellId} {v : Value} (hv : v.Below h.cells.size) :
    (h.pushItem id v).Tidy where
  closed := hh.closed.pushItem hv
  distinct hes := hh.distinct (getElem?_pushItem_of_mapping.mp hes)

theorem extends_pushItem (h : Heap) (id : CellId) (v : Value) :
    h.Extends (h.pushItem id v) where
  size_le := Nat.le_of_eq (size_pushItem ..).symm
  mapping hc := ⟨_, getElem?_pushItem_of_mapping.mpr hc, fun _ hk => hk⟩

/-- The entries that a nested entry is set among: those found on the way, or none. -/
def foundAt (h : Heap) (id : CellId) (segment : String) : Entries Value :=
  ((h.valueAt? id (.text segment)).bind h.entriesOf?).getD []

/-- Setting a nested entry copies the mapping on the way and goes on in the copy. -/
theorem setNested_cons_cons (h : Heap) (id : CellId) (segment next : String)
    (rest : List String) (v : Value) :
    h.setNested id (segment :: next :: rest) v =
      ((h.alloc (.mapping (h.foundAt id segment))).1.setEntry id (.text segment)
        (.cell h.cells.size)).setNested h.cells.size (next :: rest) v := rfl

/-- What was found on the way is nothing, or the entries of a container that the mapping holds. -/
theorem foundAt_cases (h : Heap) (id : CellId) (segment : String) :
    h.foundAt id segment = [] ∨
      ∃ c, Value.cell c ∈ h.parts id ∧ h.entries? c = some (h.foundAt id segment) := by
  unfold foundAt valueAt?
  split
  · next es hid =>
    cases hg : es.get? (.text segment) with
    | none => exact .inl rfl
    | some u =>
      cases u with
      | atom a => exact .inl rfl
      | cell c =>
        cases hc : h.entries? c with
        | none => simp [entriesOf?, hc]
        | some found =>
          refine .inr ⟨c, ?_, by simp [entriesOf?, hc]⟩
          rw [parts_of_entries? (entries?_of_mapping hid)]
          unfold Entries.get? at hg
          obtain ⟨e, he, hv⟩ := Option.map_eq_some_iff.mp hg
          exact hv ▸ List.mem_map_of_mem (List.mem_of_find?_eq_some he)
  · exact .inl rfl

/-- What is kept where a mapping on the way is copied and linked leads to what setting the last key
gives. -/
theorem setNested_induction {P : Heap → CellId → Prop} {Q : Heap → Prop} {v : Value}
    {segments : List String} (none : ∀ h id, P h id → Q h)
    (step : ∀ h id, ∀ segment ∈ segments, P h id →
      P ((Heap.alloc h (.mapping (foundAt h id segment))).1.setEntry id (.text segment)
        (.cell h.cells.size)) h.cells.size)
    (last : ∀ h id, ∀ segment ∈ segments, P h id → Q (setEntry h id (.text segment) v))
    {id : CellId} (hP : P h id) : Q (h.setNested id segments v) := by
  induction segments generalizing h id with
  | nil => exact none h id hP
  | cons segment rest ih =>
    cases rest with
    | nil => exact last h id segment List.mem_cons_self hP
    | cons next rest =>
      rw [setNested_cons_cons]
      refine ih (fun h id s hs => step h id s (List.mem_cons_of_mem _ hs))
        (fun h id s hs => last h id s (List.mem_cons_of_mem _ hs)) ?_
      exact step h id segment List.mem_cons_self hP

/-- Setting a nested entry loses nothing. -/
theorem extends_setNested (h : Heap) (id : CellId) (segments : List String) (v : Value) :
    h.Extends (h.setNested id segments v) := by
  refine setNested_induction (P := fun h' _ => h.Extends h') (fun _ _ hP => hP) ?_ ?_ (.refl h)
  · intro h' id segment _ hP
    exact (hP.trans (extends_alloc h' _)).trans (extends_setEntry ..)
  · intro h' id segment _ hP
    exact hP.trans (extends_setEntry ..)

/-- What is found on the way can be kept. -/
theorem Tidy.foundAt (hh : h.Tidy) (id : CellId) (segment : String) :
    (∀ v ∈ (h.foundAt id segment).values, v.Below h.cells.size) ∧
      (h.foundAt id segment).Distinct := by
  rcases foundAt_cases h id segment with he | ⟨c, -, hc⟩
  · rw [he]
    exact ⟨by simp [Entries.values], .nil⟩
  · exact ⟨hh.closed.entries hc, hh.entries hc⟩

theorem Tidy.setNested (hh : h.Tidy) {id : CellId} {segments : List String} {v : Value}
    (hv : v.Below h.cells.size) : (h.setNested id segments v).Tidy := by
  refine setNested_induction (P := fun h _ => h.Tidy ∧ v.Below h.cells.size) (fun _ _ hP => hP.1)
    ?_ ?_ ⟨hh, hv⟩
  · intro h id segment _ ⟨hh, hv⟩
    obtain ⟨hbelow, hdistinct⟩ := hh.foundAt id segment
    have halloc : (h.alloc (.mapping (h.foundAt id segment))).1.Tidy :=
      hh.alloc hbelow fun es he => by cases he; exact hdistinct
    refine ⟨halloc.setEntry ?_, ?_⟩
    · rw [size_alloc]
      exact Nat.lt_succ_self _
    · rw [size_setEntry, size_alloc]
      exact hv.mono (Nat.le_succ _)
  · intro h id segment _ ⟨hh, hv⟩
    exact hh.setEntry hv

/-- Setting a nested entry writes the mapping that it starts from and new ones. -/
theorem getElem?_setNested_of_ne {id c : CellId} (segments : List String) (v : Value)
    (hc : c < h.cells.size) (hne : c ≠ id) :
    (h.setNested id segments v).cells[c]? = h.cells[c]? := by
  refine setNested_induction
    (P := fun h' id' => c < h'.cells.size ∧ c ≠ id' ∧ h'.cells[c]? = h.cells[c]?)
    (Q := fun h' => h'.cells[c]? = h.cells[c]?) (fun _ _ hP => hP.2.2) ?_ ?_ ⟨hc, hne, rfl⟩
  · intro h' id' segment _ ⟨hlt, hne, he⟩
    refine ⟨?_, Nat.ne_of_lt hlt, ?_⟩
    · rw [size_setEntry, size_alloc]
      exact Nat.lt_succ_of_lt hlt
    · rw [getElem?_setEntry_of_ne _ _ _ _ hne, getElem?_alloc_of_lt h' _ hlt, he]
  · intro h' id' segment _ ⟨_, hne, he⟩
    rw [getElem?_setEntry_of_ne _ _ _ _ hne, he]

end Heap

end Groundplan
