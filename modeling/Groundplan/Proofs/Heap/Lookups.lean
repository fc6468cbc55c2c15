import Groundplan.Proofs.Datum.Sameness
import Groundplan.Proofs.Heap.Agreement

/-!
# Lookups along paths of keys

A path of keys leads from a value through mappings, and through views of mappings, to what stands at
its end. Two heaps are alike from a value on if every path leads to the same on both, where a mapping
counts as the same if its keys are, in whatever way keys are compared.
-/

namespace Groundplan.Heap

variable {h h' h'' : Heap} {v u : Value}

/-- What a key of a mapping leads to, or of the mapping that a view shows. -/
def child? (h : Heap) (v : Value) (key : Key) : Option Value :=
  (h.entriesOf? v).bind (Entries.get? · key)

/-- What a path of keys leads to. -/
def lookup? (h : Heap) : Value → List Key → Option Value
  | v, [] => some v
  | v, key :: path => (h.child? v key).bind (h.lookup? · path)

theorem lookup?_append (v : Value) (path path' : List Key) :
    h.lookup? v (path ++ path') = (h.lookup? v path).bind (h.lookup? · path') := by
  induction path generalizing v with
  | nil => rfl
  | cons key path ih =>
    rw [List.cons_append, lookup?, lookup?, Option.bind_assoc]
    exact congrArg _ (funext ih)

theorem child?_of_mapping {c : CellId} {es : Entries Value} (hc : h.cells[c]? = some (.mapping es))
    (key : Key) : h.child? (.cell c) key = es.get? key := by
  rw [child?, entriesOf?, entries?_of_mapping hc, Option.bind_some]

/-- What a key leads to stands in the container. -/
theorem mem_parts_of_child? {key : Key} (hu : h.child? v key = some u) :
    ∃ c, v = .cell c ∧ u ∈ h.parts c := by
  cases v with
  | atom a => cases hu
  | cell c =>
    obtain ⟨es, hes, hget⟩ := Option.bind_eq_some_iff.mp hu
    refine ⟨c, rfl, ?_⟩
    obtain ⟨l, he, -⟩ := Entries.exists_mem_of_get? hget
    rw [parts_of_entries? hes]
    exact List.mem_map_of_mem he

/-- What a path leads to is reached. -/
theorem reaches_of_lookup? {path : List Key} (hu : h.lookup? v path = some u) : h.Reaches v u := by
  induction path generalizing v with
  | nil =>
    cases hu
    exact .refl _
  | cons key path ih =>
    obtain ⟨x, hx, hxu⟩ := Option.bind_eq_some_iff.mp hu
    obtain ⟨c, rfl, hpart⟩ := mem_parts_of_child? hx
    exact .step hpart (ih hxu)

theorem Agree.child?_eq (hv : Agree h h' v) (key : Key) : h'.child? v key = h.child? v key := by
  cases v with
  | atom a => rfl
  | cell c => rw [child?, child?, entriesOf?, entriesOf?, (hv c (.refl _)).entries_eq]

/-- Heaps that agree on a value lead from it to the same. -/
theorem Agree.lookup?_eq (hv : Agree h h' v) (path : List Key) :
    h'.lookup? v path = h.lookup? v path := by
  induction path generalizing v with
  | nil => rfl
  | cons key path ih =>
    rw [lookup?, lookup?, hv.child?_eq]
    cases hx : h.child? v key with
    | none => rfl
    | some x =>
      obtain ⟨c, rfl, hpart⟩ := mem_parts_of_child? hx
      exact ih (hv.part hpart)

/-- Neither path goes on from the other. -/
def Diverge {α : Type} (path path' : List α) : Prop := ¬ path <+: path' ∧ ¬ path' <+: path

section Diverge

variable {α : Type} {path path' : List α}

theorem Diverge.symm (hd : Diverge path path') : Diverge path' path := ⟨hd.2, hd.1⟩

/-- Where the first key is one and the same, paths diverge later. -/
theorem diverge_cons {key : α} : Diverge (key :: path) (key :: path') ↔ Diverge path path' := by
  simp only [Diverge, List.cons_prefix_cons, true_and]

/-- A path that goes on from one of two diverging paths diverges from the other. -/
theorem Diverge.of_prefix {longer : List α} (hd : Diverge path path') (hp : path <+: longer) :
    Diverge longer path' :=
  ⟨fun hl => hd.1 (hp.trans hl),
    fun hl => (List.prefix_or_prefix_of_prefix hp hl).elim hd.1 hd.2⟩

end Diverge

/-- What two heaps show in one place: nothing, one and the same value, or open mappings whose keys
compare. -/
inductive LikeAt (keysAlike : List Key → List Key → Prop) (h h' : Heap) :
    Option Value → Option Value → Prop
  | nothing : LikeAt keysAlike h h' none none
  | same {v : Value} (hv : Agree h h' v) : LikeAt keysAlike h h' (some v) (some v)
  | mapping {c c' : CellId} {es es' : Entries Value} (hc : h.cells[c]? = some (.mapping es))
      (hc' : h'.cells[c']? = some (.mapping es')) (hkeys : keysAlike es.keys es'.keys) :
      LikeAt keysAlike h h' (some (.cell c)) (some (.cell c'))

theorem LikeAt.symm {keysAlike : List Key → List Key → Prop}
    (hsymm : ∀ ks ks', keysAlike ks ks' → keysAlike ks' ks) {found found' : Option Value}
    (hl : LikeAt keysAlike h h' found found') : LikeAt keysAlike h' h found' found := by
  cases hl with
  | nothing => exact .nothing
  | same hv => exact .same hv.symm
  | mapping hc hc' hkeys => exact .mapping hc' hc (hsymm _ _ hkeys)

/-- Two heaps show the like wherever a path of keys leads from a value. -/
def LikeAlong (keysAlike : List Key → List Key → Prop) (h h' : Heap) (v : Value) : Prop :=
  ∀ path, LikeAt keysAlike h h' (h.lookup? v path) (h'.lookup? v path)

/-- Where both heaps lead to what a third has, and agree with it on that, they show the like. -/
theorem likeAt_of_agree {keysAlike : List Key → List Key → Prop} {found : Option Value}
    (hv : ∀ v ∈ found, Agree h h' v) (hv' : ∀ v ∈ found, Agree h h'' v) :
    LikeAt keysAlike h' h'' found found := by
  cases found with
  | none => exact .nothing
  | some v => exact .same ((hv v rfl).symm.trans (hv' v rfl))

end Groundplan.Heap
