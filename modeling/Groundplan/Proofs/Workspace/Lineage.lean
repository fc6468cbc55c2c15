import Groundplan.Proofs.Workspace.Trees

/-!
# Lineages

The way up from a node stays as it is however its workspace grows, and with it all that is made of
ids on that way: the node's path, its logical id and the tokens of references to it. No logical id
is empty.
-/

namespace Groundplan.Workspace

variable {w w' : Workspace}

/-- The way up from a node goes over nodes above it. -/
theorem above_of_mem_upward {fuel : Nat} {n m : NodeId} (hm : m ∈ w.upward fuel n) :
    w.Above m n := by
  induction fuel generalizing n with
  | zero =>
    obtain rfl := List.mem_singleton.mp hm
    exact .refl
  | succ fuel ih =>
    rw [upward] at hm
    cases hp : (w.node n).parent with
    | none =>
      rw [hp] at hm
      obtain rfl := List.mem_singleton.mp hm
      exact .refl
    | some p =>
      rw [hp] at hm
      rcases List.mem_cons.mp hm with rfl | hm
      · exact .refl
      · exact .step hp (ih hm)

/-- Nothing stands above the oldest node. -/
theorem Forest.parent_zero (hw : w.Forest) : (w.node 0).parent = none := by
  cases hp : (w.node 0).parent with
  | none => rfl
  | some p => exact absurd (hw.parent_lt hp) (Nat.not_lt_zero p)

/-- Ways up that are long enough are the same. -/
theorem Forest.upward_congr (hw : w.Forest) {f g n : Nat} (hf : n ≤ f) (hg : n ≤ g) :
    w.upward f n = w.upward g n := by
  induction f generalizing n g with
  | zero =>
    obtain rfl := Nat.le_zero.mp hf
    cases g with
    | zero => rfl
    | succ g =>
      rw [upward, upward, hw.parent_zero]
  | succ f ih =>
    cases g with
    | zero =>
      obtain rfl := Nat.le_zero.mp hg
      rw [upward, upward, hw.parent_zero]
    | succ g =>
      rw [upward, upward]
      cases hp : (w.node n).parent with
      | none => rfl
      | some p =>
        have hlt := hw.parent_lt hp
        dsimp only
        rw [ih (Nat.le_of_lt_succ (Nat.lt_of_lt_of_le hlt hf))
          (Nat.le_of_lt_succ (Nat.lt_of_lt_of_le hlt hg))]

section Grows

variable (hw : w.Forest) (hw' : w'.Forest) (h : Grows w w') {n : NodeId} (hn : n < w.nodes.size)
include hw h hn

omit h in
/-- Every node on the way up is there. -/
private theorem lt_size_of_mem_lineage {m : NodeId} (hm : m ∈ w.lineage n) : m < w.nodes.size :=
  hw.lt_size_of_above hn (above_of_mem_upward hm)

private theorem upward_eq_of_grows (fuel : Nat) : w'.upward fuel n = w.upward fuel n := by
  induction fuel generalizing n with
  | zero => rfl
  | succ fuel ih =>
    rw [upward, upward, h.parent_eq hn]
    cases hp : (w.node n).parent with
    | none => rfl
    | some p =>
      dsimp only
      rw [ih (Nat.lt_trans (hw.parent_lt hp) hn)]

include hw'

/-- The way up from a node stays as it is. -/
theorem lineage_eq_of_grows : w'.lineage n = w.lineage n := by
  have hle : n ≤ w.nodes.size := Nat.le_of_lt hn
  calc w'.lineage n = w'.upward w.nodes.size n :=
        hw'.upward_congr (Nat.le_trans hle h.size_le) hle
    _ = w.lineage n := upward_eq_of_grows hw h hn _

theorem scopePath_eq_of_grows : w'.scopePath n = w.scopePath n := by
  rw [scopePath, scopePath, lineage_eq_of_grows hw hw' h hn]
  apply List.map_congr_left
  intro m hm
  have hm : m ∈ w.lineage n := List.dropLast_subset _ (List.mem_reverse.mp hm)
  exact h.id_eq (lt_size_of_mem_lineage hw hn hm)

theorem path_eq_of_grows : w'.path n = w.path n := by
  have hroot : w.root n < w.nodes.size := hw.lt_size_of_above hn (hw.above_root n)
  rw [path, path, scopePath_eq_of_grows hw hw' h hn, hw.root_eq_of_grows h hw' hn, h.id_eq hroot]

theorem logicalId_eq_of_grows : w'.logicalId n = w.logicalId n := by
  rw [logicalId, logicalId, scopePath_eq_of_grows hw hw' h hn, h.id_eq hn]

omit hn in
theorem token_eq_of_grows {r : Reference} (hr : r.target < w.nodes.size) :
    w'.token r = w.token r := by
  simp only [token, h.kind_eq hr, h.typeTag_eq hr, logicalId_eq_of_grows hw hw' h hr]

end Grows

/-- No identifier is empty. -/
theorem ne_empty_of_isIdentifier {s : String} (h : IsIdentifier s) : s ≠ "" := by
  rintro rfl
  cases h.1

/-- No logical id is empty. -/
theorem Reached.logicalId_ne_empty (hw : Reached w) {n : NodeId} (hn : n < w.nodes.size) :
    w.logicalId n ≠ "" := by
  have hid {m : NodeId} (hm : m < w.nodes.size) : (w.node m).id ≠ "" :=
    ne_empty_of_isIdentifier (hw.wellDeclared hm).isIdentifier
  rw [logicalId]
  cases hpath : w.scopePath n with
  | nil => exact hid hn
  | cons own rest =>
    cases rest with
    | nil =>
      have hmem : own ∈ w.scopePath n := by rw [hpath]; exact List.mem_cons_self
      obtain ⟨m, hm, rfl⟩ := List.mem_map.mp hmem
      have hm : m ∈ w.lineage n := List.dropLast_subset _ (List.mem_reverse.mp hm)
      exact hid (hw.forest.lt_size_of_above hn (above_of_mem_upward hm))
    | cons next rest => simp [logicalIdOf]

end Groundplan.Workspace
