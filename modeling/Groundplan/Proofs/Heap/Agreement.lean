import Groundplan.Proofs.Heap.Contents
import Groundplan.Proofs.Heap.Reading

/-!
# Agreement of heaps

Two heaps agree on a value if every container that the value reaches on the first is the same on the
second and shows the same entries there. The value then reaches the same containers on both and
reads as the same datum, however many other containers either heap has. Heaps that differ in one
container and in new ones agree on every value that does not draw on that container.
-/

namespace Groundplan.Heap

variable {h h' h'' : Heap} {v : Value}

/-- The container is the same on both heaps, and so are the entries that it shows. -/
structure SameAt (h h' : Heap) (c : CellId) : Prop where
  cell_eq : h'.cells[c]? = h.cells[c]?
  entries_eq : h'.entries? c = h.entries? c

/-- A container is the same if all that stand behind it are. -/
theorem sameAt_of_backs {c : CellId} (hc : ∀ b, h.Backs b c → h'.cells[b]? = h.cells[b]?) :
    SameAt h h' c := ⟨hc c .refl, entries?_congr hc⟩

namespace SameAt

theorem refl (h : Heap) (c : CellId) : SameAt h h c := ⟨rfl, rfl⟩

theorem symm {c : CellId} (hc : SameAt h h' c) : SameAt h' h c :=
  ⟨hc.cell_eq.symm, hc.entries_eq.symm⟩

theorem trans {c : CellId} (h₁ : SameAt h h' c) (h₂ : SameAt h' h'' c) : SameAt h h'' c :=
  ⟨h₂.cell_eq.trans h₁.cell_eq, h₂.entries_eq.trans h₁.entries_eq⟩

variable {c : CellId} (hc : SameAt h h' c)
include hc

theorem parts_eq : h'.parts c = h.parts c := by
  simp only [parts, hc.cell_eq, hc.entries_eq]

theorem container_eq : h'.container c = h.container c := by
  simp only [container, hc.cell_eq]

/-- A container is read alike if its parts are. -/
theorem layer_eq {f g : Value → Datum} (hfg : ∀ u ∈ h.parts c, g u = f u) :
    h'.layer c g = h.layer c f := by
  unfold layer
  unfold parts at hfg
  rw [hc.cell_eq, hc.entries_eq]
  split
  · next items hid =>
    rw [hid] at hfg
    rw [List.map_congr_left hfg]
  · next items hid =>
    rw [hid] at hfg
    rw [List.map_congr_left hfg]
  · next es hid =>
    rw [hid] at hfg
    rw [Entries.mapValues_congr hfg]
  · next base hid =>
    rw [hid] at hfg
    rw [Entries.mapValues_congr hfg]
  · rfl

end SameAt

/-- All containers that a value reaches on the first heap are the same on the second. -/
def Agree (h h' : Heap) (v : Value) : Prop := ∀ c, h.Reaches v (.cell c) → SameAt h h' c

namespace Agree

theorem refl (h : Heap) (v : Value) : Agree h h v := fun c _ => .refl h c

/-- Heaps that agree on a container agree on its parts. -/
theorem part {id : CellId} (hv : Agree h h' (.cell id)) {u : Value} (hu : u ∈ h.parts id) :
    Agree h h' u := fun c hc => hv c (.step hu hc)

/-- Heaps that agree on a value agree on what is reached from it. -/
theorem of_reaches (hv : Agree h h' v) {u : Value} (hu : h.Reaches v u) : Agree h h' u :=
  fun c hc => hv c (hu.trans hc)

/-- What is reached on the first heap is reached on the second. -/
theorem reaches (hv : Agree h h' v) {u : Value} (hu : h.Reaches v u) : h'.Reaches v u := by
  induction hu with
  | refl => exact .refl _
  | @step id _ _ hpart _ ih =>
    apply Reaches.step _ (ih (hv.part hpart))
    rwa [(hv id (.refl _)).parts_eq]

/-- What is reached on the second heap is reached on the first. -/
theorem reaches_of_reaches (hv : Agree h h' v) {u : Value} (hu : h'.Reaches v u) :
    h.Reaches v u := by
  induction hu with
  | refl => exact .refl _
  | @step id _ _ hpart _ ih =>
    rw [(hv id (.refl _)).parts_eq] at hpart
    exact .step hpart (ih (hv.part hpart))

theorem symm (hv : Agree h h' v) : Agree h' h v :=
  fun c hc => (hv c (hv.reaches_of_reaches hc)).symm

theorem trans (h₁ : Agree h h' v) (h₂ : Agree h' h'' v) : Agree h h'' v := by
  intro c hc
  exact (h₁ c hc).trans (h₂ c (h₁.reaches hc))

/-- Heaps that agree on a value read it alike below the same containers. -/
theorem read_eq {fuel fuel' : Nat} {inside : List CellId} (hv : Agree h h' v)
    (hp : OnPath h fuel inside v) (hp' : OnPath h' fuel' inside v) :
    h'.read fuel' inside v = h.read fuel inside v := by
  induction fuel generalizing fuel' inside v with
  | zero => exact absurd rfl hp.fuel_ne_zero
  | succ fuel ih =>
    cases fuel' with
    | zero => exact absurd rfl hp'.fuel_ne_zero
    | succ fuel' =>
      cases v with
      | atom a => rw [read_atom, read_atom]
      | cell id =>
        have hid := hv id (.refl _)
        rw [read_cell_succ, read_cell_succ, hid.container_eq]
        by_cases hin : id ∈ inside
        · rw [if_pos hin, if_pos hin]
        · rw [if_neg hin, if_neg hin]
          apply hid.layer_eq
          intro u hu
          exact ih (hv.part hu) (hp.down hin hu) (hp'.down hin (by rwa [hid.parts_eq]))

/-- Heaps that agree on a value read it as the same datum. -/
theorem datum_eq (hv : Agree h h' v) : h'.datum v = h.datum v :=
  hv.read_eq (onPath_start v) (onPath_start v)

end Agree

section Drawing

variable {u : Value} {c : CellId}

/-- A value draws on what a value in it draws on. -/
theorem DrawsOn.of_reaches (hr : h.Reaches v u) (hu : h.DrawsOn u c) : h.DrawsOn v c := by
  obtain ⟨id, hid, hb⟩ := hu
  exact ⟨id, hr.trans hid, hb⟩

/-- What is drawn on is there. -/
theorem DrawsOn.lt_size (hh : h.Closed) (hv : v.Below h.cells.size) (hd : h.DrawsOn v c) :
    c < h.cells.size := by
  obtain ⟨id, hr, hb⟩ := hd
  have hparts : h.AllParts (·.Below h.cells.size) := hh
  have hid : id < h.cells.size := hparts.of_reaches hv hr
  exact Nat.lt_of_le_of_lt hb.le hid

section Apart

variable {P : CellId → Prop} (hh : h.Closed)
  (hcells : ∀ c < h.cells.size, ¬ P c → h'.cells[c]? = h.cells[c]?)
  (hv : v.Below h.cells.size) (hapart : ∀ c, P c → ¬ h.DrawsOn v c)
include hh hcells hv hapart

/-- Where only some containers and new ones are written, heaps agree on what draws on none of them. -/
theorem agree_of_apart : Agree h h' v := by
  intro c hr
  have hparts : h.AllParts (·.Below h.cells.size) := hh
  have hlt : c < h.cells.size := hparts.of_reaches hv hr
  apply sameAt_of_backs
  intro b hb
  exact hcells b (Nat.lt_of_le_of_lt hb.le hlt) fun hw => hapart b hw ⟨c, hr, hb⟩

/-- What draws on none of them draws on nothing new. -/
theorem drawsOn_of_apart (hd : h'.DrawsOn v c) : h.DrawsOn v c := by
  obtain ⟨id, hr, hb⟩ := hd
  replace hr := (agree_of_apart hh hcells hv hapart).reaches_of_reaches hr
  have hparts : h.AllParts (·.Below h.cells.size) := hh
  refine ⟨id, hr, ?_⟩
  -- no container that is written stands behind this one, so the views in front of it are as they were
  have hlt : id < h.cells.size := hparts.of_reaches hv hr
  have hunwritten (b : CellId) (hback : h.Backs b id) : ¬ P b := fun hw =>
    hapart b hw ⟨id, hr, hback⟩
  clear hr
  induction hb with
  | refl => exact .refl
  | view hview hbase _ ih =>
    have hview := (hcells _ hlt (hunwritten _ .refl)) ▸ hview
    refine .view hview hbase (ih (Nat.lt_trans hbase hlt) fun b hb => hunwritten b ?_)
    exact .view hview hbase hb

end Apart

end Drawing

end Groundplan.Heap
