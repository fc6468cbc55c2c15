import Groundplan.Proofs.Heap.Contents
import Groundplan.Proofs.Workspace.Stored

/-!
# What can be named

What a caller can name stays so. And all that containers hold can be named by a caller: no container
leads to anything that is not there, and no view shows anything but a mapping.
-/

namespace Groundplan

namespace Workspace

variable {w w' : Workspace}

/-- What can be named in the first workspace can be named in the second. -/
structure Widens (w w' : Workspace) : Prop where
  grows : Grows w w'
  apps_le : w.apps.size ≤ w'.apps.size
  cells_le : w.heap.cells.size ≤ w'.heap.cells.size

private theorem Step.apps_le {allowed : CellId → Prop} (h : w.Step allowed w') :
    w.apps.size ≤ w'.apps.size := by
  cases h with
  | app a => simp
  | stack a name => simp [withStack, modifyApp, addOwning, addNode, withHeap]
  | closed locked => exact Nat.le_of_eq (by rw [apps_foldl_close])
  | _ => exact Nat.le_refl _

private theorem Step.cells_le {allowed : CellId → Prop} (h : w.Step allowed w') :
    w.heap.cells.size ≤ w'.heap.cells.size := by
  cases h with
  | same => exact Nat.le_refl _
  | app a => exact Nat.le_refl _
  | stack a name =>
    rw [heap_withStack]
    exact (Heap.extends_alloc ..).size_le
  | child parent =>
    rw [heap_withChild]
    exact (Heap.extends_alloc ..).size_le
  | property n key v =>
    rw [(sameTrees_markBuilding ..).heap_eq]
    exact (Heap.extends_setEntry ..).size_le
  | override n segments v =>
    rw [(sameTrees_markBuilding ..).heap_eq]
    exact (Heap.extends_setNested ..).size_le
  | keep cell => exact (Heap.extends_alloc ..).size_le
  | push list item => exact (Heap.extends_pushItem ..).size_le
  | put mapping key v => exact (Heap.extends_setEntry ..).size_le
  | closed locked => exact Nat.le_of_eq (by rw [(sameTrees_foldl_close locked w).heap_eq])

/-- A step takes nothing from what can be named. -/
theorem Step.widens {allowed : CellId → Prop} (h : w.Step allowed w') : Widens w w' where
  grows := h.growth.grows
  apps_le := h.apps_le
  cells_le := h.cells_le

end Workspace

section Widens

variable {w w' : Workspace}

theorem Entity.InScope.mono (h : w.Widens w') {e : Entity} (he : e.InScope w) : e.InScope w' := by
  cases e with
  | object => trivial
  | app a => exact Nat.lt_of_lt_of_le he h.apps_le
  | node n isStack =>
    refine ⟨Nat.lt_of_lt_of_le he.1 h.grows.size_le, ?_⟩
    rw [h.grows.isStack_eq he.1]
    exact he.2

mutual
theorem Key.InScope.mono (h : w.Widens w') : ∀ {k : Key}, k.InScope w → k.InScope w'
  | .scalar _, _ => trivial
  | .bytes _, _ => trivial
  | .tuple _, hk => Key.AllInScope.mono h hk
  | .reference _, hk => Nat.lt_of_lt_of_le hk h.grows.size_le
  | .entity _, hk => Entity.InScope.mono h hk

theorem Key.AllInScope.mono (h : w.Widens w') :
    ∀ {ks : List Key}, Key.AllInScope w ks → Key.AllInScope w' ks
  | [], _ => trivial
  | _ :: _, hks => ⟨Key.InScope.mono h hks.1, Key.AllInScope.mono h hks.2⟩
end

theorem Atom.InScope.mono (h : w.Widens w') {a : Atom} (ha : a.InScope w) : a.InScope w' := by
  cases a with
  | scalar s => trivial
  | reference r => exact Nat.lt_of_lt_of_le ha h.grows.size_le
  | bytes b => trivial
  | set elements => exact fun k hk => Key.InScope.mono h (ha k hk)
  | entity e => exact Entity.InScope.mono h ha

/-- What can be named stays so. -/
theorem Value.InScope.mono (h : w.Widens w') {v : Value} (hv : v.InScope w) : v.InScope w' := by
  cases v with
  | atom a => exact Atom.InScope.mono h hv
  | cell id => exact Nat.lt_of_lt_of_le hv h.cells_le

end Widens

namespace Workspace

variable {w w' : Workspace}

/-- An atom names only what is there; containers are left to the heap. -/
def Knows (w : Workspace) : Value → Prop
  | .atom a => a.InScope w
  | .cell _ => True

/-- A value can be named if it is on the heap and, as an atom, names only what is there. -/
theorem inScope_iff {v : Value} : v.InScope w ↔ v.Below w.heap.cells.size ∧ w.Knows v := by
  cases v with
  | atom a => exact (and_iff_right trivial).symm
  | cell id => exact (and_iff_left trivial).symm

/-- Containers hold no atoms that name what is not there, and views show mappings. -/
structure Known (w : Workspace) : Prop where
  parts : w.heap.AllParts w.Knows
  views : w.heap.Viewing

/-- What the entries of a declaration lead to was there or can be named. -/
private theorem Declared.forall_values {P : Value → Prop} (hold : w.heap.AllParts P)
    (hscope : ∀ v, v.InScope w → P v) {n : Node} {es : Entries Value} (h : w.Declared n es) :
    ∀ v ∈ es.values, P v := by
  intro v hv
  cases h with
  | group => simp [Entries.values] at hv
  | typed => simp [Entries.values] at hv
  | typedWith id kind typeTag htag hc hes => exact hold.entries hes v hv
  | output id hvalue hdescription hsensitive =>
    rcases mem_values_outputEntries hv with rfl | rfl | rfl
    · exact hscope _ hvalue
    · exact hscope _ hdescription
    · exact hscope _ hsensitive

/-- What a caller makes a container of was there or can be named. -/
private theorem forall_contents {P : Value → Prop} (hold : w.heap.AllParts P)
    (hscope : ∀ v, v.InScope w → P v) {cell : Cell} (hc : cell.InScope w) :
    ∀ v ∈ w.heap.contents cell, P v := by
  intro v hv
  cases cell with
  | list items => exact hscope v (hc v hv)
  | tuple items => exact hscope v (hc v hv)
  | mapping es =>
    obtain ⟨e, he, rfl⟩ := List.mem_map.mp hv
    exact hscope _ (hc.2 e he).2
  | view base =>
    obtain ⟨es, hes⟩ := Option.isSome_iff_exists.mp hc.2
    rw [Heap.contents, hes] at hv
    exact hold.entries hes v hv

private theorem Known.of_heap_eq {h : Heap} (he : w.heap = h) (hparts : h.AllParts w.Knows)
    (hviews : h.Viewing) : w.Known := ⟨he ▸ hparts, he ▸ hviews⟩

private theorem known_step {allowed : CellId → Prop} (hw : w.Known) (hs : w.Stored)
    (h : w.Step allowed w') : w'.Known := by
  have hwiden : Widens w w' := h.widens
  have hscope (v : Value) (hv : v.InScope w) : w'.Knows v :=
    (inScope_iff.mp (Value.InScope.mono hwiden hv)).2
  have hold : w.heap.AllParts w'.Knows := fun c v hv =>
    hscope v (inScope_iff.mpr ⟨hs.tidy.closed c v hv, hw.parts c v hv⟩)
  cases h with
  | same => exact hw
  | app a => exact ⟨hold, hw.views⟩
  | stack a name =>
    apply Known.of_heap_eq (heap_withStack w a name)
    · exact hold.alloc (by simp [Heap.contents, Entries.values])
    · exact hw.views.alloc fun base he => by cases he
  | child parent hp _ _ _ hn =>
    apply Known.of_heap_eq (heap_withChild w parent _ _)
    · exact hold.alloc (hn.forall_values hold hscope)
    · exact hw.views.alloc fun base he => by cases he
  | property n key v _ _ _ _ hv =>
    apply Known.of_heap_eq (sameTrees_markBuilding _ n).heap_eq
    · exact hold.setEntry _ _ (hscope v hv)
    · exact hw.views.setEntry ..
  | override n segments v _ _ _ _ hv =>
    apply Known.of_heap_eq (sameTrees_markBuilding _ n).heap_eq
    · exact hold.setNested (fun _ _ => trivial) _ _ (hscope v hv)
    · exact hw.views.setNested ..
  | keep cell hc =>
    refine ⟨hold.alloc (forall_contents hold hscope hc), hw.views.alloc ?_⟩
    rintro base rfl
    exact hc
  | push list item _ _ hi => exact ⟨hold.pushItem _ (hscope item hi), hw.views.pushItem ..⟩
  | put mapping key v _ _ _ hv => exact ⟨hold.setEntry _ _ (hscope v hv), hw.views.setEntry ..⟩
  | closed locked =>
    exact .of_heap_eq (sameTrees_foldl_close locked w).heap_eq hold hw.views

private theorem known_start : Known {} where
  parts c v hv := by simp [Heap.parts] at hv
  views id base hid := by simp at hid

/-- On what is reached, no container leads to what is not there. -/
theorem Reached.known (hw : Reached w) : w.Known := by
  induction hw with
  | start => exact known_start
  | step hw call hc ih =>
    have hstep : Step _ (fun _ => True) _ := step_perform hc fun _ _ => trivial
    exact known_step ih hw.stored hstep

/-- What is reached from what can be named can be named. -/
theorem Reached.inScope_of_reaches (hw : Reached w) {v u : Value} (hv : v.InScope w)
    (hr : w.heap.Reaches v u) : u.InScope w := by
  obtain ⟨hbelow, hnames⟩ := inScope_iff.mp hv
  have hclosed : w.heap.AllParts (·.Below w.heap.cells.size) := hw.stored.tidy.closed
  exact inScope_iff.mpr ⟨hclosed.of_reaches hbelow hr, hw.known.parts.of_reaches hnames hr⟩

end Workspace

end Groundplan
