import Groundplan.Proofs.Heap.Contents
import Groundplan.Proofs.Workspace.Stored

/-!
# References

A node gives references only to resources and data sources. While all references that a caller hands
over are such, all references that show up in the properties of nodes are: whatever is written holds
what was handed over or what was there.
-/

namespace Groundplan

/-- The value is no reference, or one to a resource or data source. -/
def Value.Refers (w : Workspace) : Value → Prop
  | .atom (.reference r) => (w.node r.target).kind.isReferenceable = true
  | _ => True

instance (w : Workspace) : (v : Value) → Decidable (v.Refers w)
  | .atom (.reference r) => inferInstanceAs (Decidable ((w.node r.target).kind.isReferenceable = true))
  | .atom (.scalar _) => .isTrue trivial
  | .atom (.bytes _) => .isTrue trivial
  | .atom (.set _) => .isTrue trivial
  | .atom (.entity _) => .isTrue trivial
  | .cell _ => .isTrue trivial

/-- All references that a caller puts into a container are to resources and data sources. -/
def Cell.Refers (w : Workspace) : Cell → Prop
  | .list items => ∀ v ∈ items, v.Refers w
  | .tuple items => ∀ v ∈ items, v.Refers w
  | .mapping es => ∀ v ∈ es.values, v.Refers w
  | .view _ => True

instance (w : Workspace) : (cell : Cell) → Decidable (cell.Refers w)
  | .list items => inferInstanceAs (Decidable (∀ v ∈ items, v.Refers w))
  | .tuple items => inferInstanceAs (Decidable (∀ v ∈ items, v.Refers w))
  | .mapping es => inferInstanceAs (Decidable (∀ v ∈ es.values, v.Refers w))
  | .view _ => .isTrue trivial

namespace Call

/-- All references among what a request hands over are to resources and data sources. -/
def Refers (w : Workspace) : Call → Prop
  | .addOutput _ _ value description sensitive =>
      value.Refers w ∧ description.Refers w ∧ sensitive.Refers w
  | .setProperty _ _ value => value.Refers w
  | .addOverride _ _ value => value.Refers w
  | .keep cell => cell.Refers w
  | .push _ item => item.Refers w
  | .put _ _ value => value.Refers w
  | _ => True

instance (w : Workspace) : (call : Call) → Decidable (call.Refers w)
  | .addOutput _ _ value description sensitive =>
      inferInstanceAs (Decidable (value.Refers w ∧ description.Refers w ∧ sensitive.Refers w))
  | .setProperty _ _ value => inferInstanceAs (Decidable (value.Refers w))
  | .addOverride _ _ value => inferInstanceAs (Decidable (value.Refers w))
  | .keep cell => inferInstanceAs (Decidable (cell.Refers w))
  | .push _ item => inferInstanceAs (Decidable (item.Refers w))
  | .put _ _ value => inferInstanceAs (Decidable (value.Refers w))
  | .createApp _ => .isTrue trivial
  | .createStack _ _ => .isTrue trivial
  | .addConstruct _ _ => .isTrue trivial
  | .addBlock _ _ _ _ _ => .isTrue trivial
  | .synthesize _ _ => .isTrue trivial
  | .synthesizeApp _ _ => .isTrue trivial

/-- All references that requests hand over are to resources and data sources by then. -/
def AllRefer (w : Workspace) : List Call → Prop
  | [] => True
  | call :: calls => call.Refers w ∧ AllRefer (w.perform call).workspace calls

instance decidableAllRefer (w : Workspace) : (calls : List Call) → Decidable (AllRefer w calls)
  | [] => .isTrue trivial
  | call :: calls =>
      have := decidableAllRefer (w.perform call).workspace calls
      inferInstanceAs (Decidable (call.Refers w ∧ AllRefer (w.perform call).workspace calls))

end Call

namespace Workspace

variable {w w' : Workspace}

/-- A node gives references only to itself, and only if it is a resource or data source. -/
theorem refers_of_ref {n : NodeId} {attr : Value} {r : Reference} (h : w.ref n attr = .ok r) :
    r.target = n ∧ (Value.atom (.reference r)).Refers w := by
  unfold ref at h
  dsimp only at h
  split at h
  · cases h
  · next hk =>
    have hk : (w.node n).kind.isReferenceable = true := by simpa using hk
    split at h
    · split at h
      · cases h
      · cases h
        exact ⟨rfl, hk⟩
    · cases h

private theorem Grows.refers (h : Grows w w') {v : Value} (hv : v.Refers w) : v.Refers w' := by
  unfold Value.Refers at hv ⊢
  split
  · next r =>
    have hv : (w.node r.target).kind.isReferenceable = true := hv
    have hkind : (w.node r.target).kind ≠ .group := by
      intro hgroup
      rw [hgroup] at hv
      cases hv
    rwa [h.kind_eq (lt_size_of_kind_ne hkind)]
  · trivial

/-- All references that containers hold are to resources and data sources. -/
def Referring (w : Workspace) : Prop := w.heap.AllParts fun v => v.Refers w

/-- What a container is made of holds such references if what the caller hands over does. -/
private theorem refers_of_mem_contents (hw : w.Referring) {cell : Cell} (hc : cell.Refers w) :
    ∀ v ∈ w.heap.contents cell, v.Refers w := by
  intro v hv
  cases cell with
  | list items => exact hc v hv
  | tuple items => exact hc v hv
  | mapping es => exact hc v hv
  | view base =>
    rw [Heap.contents] at hv
    cases hes : w.heap.entries? base with
    | none => simp [hes, Entries.values] at hv
    | some es =>
      rw [hes] at hv
      exact hw.entries hes v hv

/-- What a request writes holds such references if what it hands over does. -/
private theorem allParts_perform (hw : w.Referring) {call : Call} (hr : call.Refers w) :
    (w.perform call).workspace.heap.AllParts fun v => v.Refers w := by
  have heffect := effect_perform w call
  generalize (w.perform call).workspace = w' at heffect
  have hempty : ∀ v ∈ Entries.values ([] : Entries Value), v.Refers w := by simp [Entries.values]
  cases heffect with
  | closing =>
    rw [(sameTrees_foldl_close _ w).heap_eq]
    exact hw
  | createApp => exact hw
  | createStack a =>
    rw [heap_withStack]
    exact Heap.AllParts.alloc hw hempty
  | addConstruct =>
    rw [heap_withChild]
    exact Heap.AllParts.alloc hw hempty
  | addBlock kind hplace hnone htag hes =>
    rw [heap_withChild]
    refine Heap.AllParts.alloc hw fun v hv => ?_
    rcases hes with ⟨-, rfl⟩ | ⟨hes, -⟩
    · exact hempty v hv
    · rename_i properties _
      cases properties with
      | atom a => cases hes
      | cell c => exact Heap.AllParts.entries hw hes v hv
  | addOutput =>
    rw [heap_withChild]
    refine Heap.AllParts.alloc hw fun v hv => ?_
    rcases mem_values_outputEntries hv with rfl | rfl | rfl
    · exact hr.1
    · exact hr.2.1
    · exact hr.2.2
  | setProperty =>
    rw [(sameTrees_markBuilding ..).heap_eq]
    exact Heap.AllParts.setEntry hw _ _ hr
  | addOverride =>
    rw [(sameTrees_markBuilding ..).heap_eq]
    exact Heap.AllParts.setNested hw (fun _ _ => trivial) _ _ hr
  | keep cell => exact Heap.AllParts.alloc hw (refers_of_mem_contents hw hr)
  | push list item => exact Heap.AllParts.pushItem hw list hr
  | put mapping key value => exact Heap.AllParts.setEntry hw mapping key hr

/-- A request that hands over such references leaves no others, as nodes stay of their kind. -/
private theorem referring_perform (hw : w.Referring) {call : Call} (hc : call.InScope w)
    (hr : call.Refers w) : (w.perform call).workspace.Referring :=
  fun c v hv => (grows_perform hc).refers (allParts_perform hw hr c v hv)

/-- While callers hand over references to resources and data sources, containers hold no others. -/
theorem referring_run (hw : w.Referring) {calls : List Call} (hc : Call.AllInScope w calls)
    (hr : Call.AllRefer w calls) : (w.run calls).Referring := by
  induction calls generalizing w with
  | nil => exact hw
  | cons call calls ih => exact ih (referring_perform hw hc.1 hr.1) hc.2 hr.2

/-- At first there is no reference. -/
theorem referring_start : Referring {} := fun c v hv => by simp [Heap.parts] at hv

end Workspace

end Groundplan
