import Groundplan.Proofs.Workspace.Lineage

/-!
# Paths

The path of a node tells it from all others of its tree: ids have no slashes, so a path falls into the
ids on the way down to the node, and no two children of one node have one id.
-/

namespace Groundplan

/-- What stands before the first mark and what stands after it are determined. -/
theorem Text.append_mark_inj {mark : Char} {as bs as' bs' : List Char} (h : mark ∉ as)
    (h' : mark ∉ as') (he : as ++ mark :: bs = as' ++ mark :: bs') : as = as' ∧ bs = bs' := by
  induction as generalizing as' with
  | nil =>
    cases as' with
    | nil => exact ⟨rfl, (List.cons.inj he).2⟩
    | cons c cs => exact absurd (by simp [(List.cons.inj he).1]) h'
  | cons c cs ih =>
    cases as' with
    | nil => exact absurd (by simp [(List.cons.inj he).1]) h
    | cons d ds =>
      rw [List.mem_cons, not_or] at h h'
      rw [List.cons_append, List.cons_append, List.cons.injEq] at he
      obtain ⟨rfl, rfl⟩ := ih h.2 h'.2 he.2
      exact ⟨by rw [he.1], rfl⟩

namespace Workspace

variable {w : Workspace} {n p : NodeId}

/-- Ids without slashes can be read off where they are joined. -/
theorem joinIds_inj {ids ids' : List String} (hne : ids ≠ []) (hne' : ids' ≠ [])
    (h : ∀ id ∈ ids, '/' ∉ id.toList) (h' : ∀ id ∈ ids', '/' ∉ id.toList)
    (he : joinIds ids = joinIds ids') : ids = ids' := by
  induction ids generalizing ids' with
  | nil => exact absurd rfl hne
  | cons id ids ih =>
    cases ids' with
    | nil => exact absurd rfl hne'
    | cons id' ids' =>
      obtain ⟨hid, hids⟩ := List.forall_mem_cons.mp h
      obtain ⟨hid', hids'⟩ := List.forall_mem_cons.mp h'
      have hslash : "/".toList = ['/'] := rfl
      have hcons {id : String} {ids : List String} (hne : ids ≠ []) :
          (joinIds (id :: ids)).toList = id.toList ++ '/' :: (joinIds ids).toList := by
        rw [joinIds, String.intercalate_cons_of_ne_nil hne]
        simp [joinIds, hslash]
      have hone {id : String} : (joinIds [id]).toList = id.toList := by simp [joinIds]
      have hchars := congrArg String.toList he
      by_cases hnil : ids = []
      · by_cases hnil' : ids' = []
        · rw [hnil, hnil', hone, hone] at hchars
          rw [hnil, hnil', String.toList_inj.mp hchars]
        · rw [hnil, hone, hcons hnil'] at hchars
          exact absurd (by simp [hchars]) hid
      · by_cases hnil' : ids' = []
        · rw [hnil', hone, hcons hnil] at hchars
          exact absurd (by simp [← hchars]) hid'
        · rw [hcons hnil, hcons hnil'] at hchars
          obtain ⟨hfirst, hrest⟩ := Text.append_mark_inj hid hid' hchars
          rw [String.toList_inj.mp hfirst,
            ih hnil hnil' hids hids' (String.toList_inj.mp hrest)]

namespace Forest

variable (hw : w.Forest)
include hw

/-- The way up from a node goes on from its parent. -/
theorem lineage_of_parent (hp : (w.node n).parent = some p) : w.lineage n = n :: w.lineage p := by
  have hn : n < w.nodes.size := lt_size_of_parent hp
  obtain ⟨k, hk⟩ := Nat.exists_eq_succ_of_ne_zero (Nat.ne_zero_of_lt hn)
  have hle : p ≤ k :=
    Nat.le_of_lt_succ (Nat.lt_trans (hw.parent_lt hp) (hk ▸ hn : n < k.succ))
  rw [lineage, lineage, hk, upward, hp]
  dsimp only
  rw [hw.upward_congr hle (Nat.le_succ_of_le hle)]

omit hw in
/-- The way up from a node without a parent ends there. -/
theorem lineage_of_no_parent (hp : (w.node n).parent = none) : w.lineage n = [n] := by
  rw [lineage]
  cases w.nodes.size with
  | zero => rfl
  | succ fuel => rw [upward, hp]

omit hw in
/-- Nothing is below the root on the way to itself. -/
theorem scopePath_of_no_parent (hp : (w.node n).parent = none) : w.scopePath n = [] := by
  rw [scopePath, lineage_of_no_parent hp]
  rfl

/-- The way down to a node goes over its parent. -/
theorem scopePath_of_parent (hp : (w.node n).parent = some p) :
    w.scopePath n = w.scopePath p ++ [(w.node n).id] := by
  have hne : w.lineage p ≠ [] := by
    cases hq : (w.node p).parent with
    | none => simp [lineage_of_no_parent hq]
    | some q => simp [hw.lineage_of_parent hq]
  rw [scopePath, scopePath, hw.lineage_of_parent hp, List.dropLast_cons_of_ne_nil hne]
  simp

end Forest

/-- Ids have no slashes. -/
private theorem Reached.slash_not_mem_id (hw : Reached w) (hn : n < w.nodes.size) :
    '/' ∉ (w.node n).id.toList := (hw.trees.id_isIdentifier n hn).2

private theorem Reached.slash_not_mem_scopePath (hw : Reached w) (hn : n < w.nodes.size) :
    ∀ id ∈ w.scopePath n, '/' ∉ id.toList := by
  intro id hid
  obtain ⟨m, hm, rfl⟩ := List.mem_map.mp hid
  have hm : m ∈ w.lineage n := List.dropLast_subset _ (List.mem_reverse.mp hm)
  exact hw.slash_not_mem_id (hw.forest.lt_size_of_above hn (above_of_mem_upward hm))

variable {w' : Workspace} {n' m : NodeId}

/-- A path tells the id of the root and the ids below it. -/
theorem Reached.path_eq_iff (hw : Reached w) (hw' : Reached w') (hn : n < w.nodes.size)
    (hn' : n' < w'.nodes.size) : w.path n = w'.path n' ↔
      (w.node (w.root n)).id = (w'.node (w'.root n')).id ∧ w.scopePath n = w'.scopePath n' := by
  have hroot : w.root n < w.nodes.size := hw.forest.lt_size_of_above hn (hw.forest.above_root n)
  have hroot' : w'.root n' < w'.nodes.size :=
    hw'.forest.lt_size_of_above hn' (hw'.forest.above_root n')
  constructor
  · intro he
    have hids := joinIds_inj (List.cons_ne_nil _ _) (List.cons_ne_nil _ _)
      (List.forall_mem_cons.mpr ⟨hw.slash_not_mem_id hroot, hw.slash_not_mem_scopePath hn⟩)
      (List.forall_mem_cons.mpr ⟨hw'.slash_not_mem_id hroot', hw'.slash_not_mem_scopePath hn'⟩) he
    exact List.cons.inj hids
  · rintro ⟨hroot, hscope⟩
    rw [path, path, hroot, hscope]

/-- The ids on the way down from the root tell a node from all others of its tree. -/
theorem Reached.eq_of_scopePath_eq (hw : Reached w) (hroot : w.root n = w.root m)
    (h : w.scopePath n = w.scopePath m) : n = m := by
  have hforest := hw.forest
  induction n using Nat.strongRecOn generalizing m with
  | ind n ih =>
    cases hp : (w.node n).parent with
    | none =>
      have hself {k : NodeId} (hk : (w.node k).parent = none) : w.root k = k :=
        hforest.root_eq_iff.mpr ⟨.refl, hk⟩
      cases hq : (w.node m).parent with
      | none => rw [← hself hp, hroot, hself hq]
      | some q =>
        rw [Forest.scopePath_of_no_parent hp, hforest.scopePath_of_parent hq] at h
        simp at h
    | some p =>
      cases hq : (w.node m).parent with
      | none =>
        rw [hforest.scopePath_of_parent hp, Forest.scopePath_of_no_parent hq] at h
        simp at h
      | some q =>
        rw [hforest.scopePath_of_parent hp, hforest.scopePath_of_parent hq] at h
        obtain ⟨hscope, hid⟩ := List.append_inj' h rfl
        have hroots : w.root p = w.root q := by
          rw [← hforest.root_eq_of_above (.step hp .refl), hroot,
            hforest.root_eq_of_above (.step hq .refl)]
        obtain rfl := ih p (hforest.parent_lt hp) hroots hscope
        exact hw.distinctSiblings hp hq (List.head_eq_of_cons_eq hid)

/-- No two nodes of a tree have one path. -/
theorem Reached.eq_of_path_eq (hw : Reached w) (hn : n < w.nodes.size) (hm : m < w.nodes.size)
    (hroot : w.root n = w.root m) (h : w.path n = w.path m) : n = m :=
  hw.eq_of_scopePath_eq hroot ((hw.path_eq_iff hw hn hm).mp h).2

/-- A path tells the logical id. -/
theorem Reached.logicalId_eq_of_path_eq (hw : Reached w) (hw' : Reached w')
    (hn : n < w.nodes.size) (hn' : n' < w'.nodes.size) (h : w.path n = w'.path n') :
    w.logicalId n = w'.logicalId n' := by
  obtain ⟨hroot, hscope⟩ := (hw.path_eq_iff hw' hn hn').mp h
  rw [logicalId, logicalId, ← hscope]
  -- only where nothing is on the way down does the node's own id count, and there it is the root
  cases hp : (w.node n).parent with
  | some p =>
    rw [hw.forest.scopePath_of_parent hp]
    cases w.scopePath p with
    | nil => rfl
    | cons id ids => cases ids <;> rfl
  | none =>
    have hself : w.root n = n := hw.forest.root_eq_iff.mpr ⟨.refl, hp⟩
    rw [Forest.scopePath_of_no_parent hp] at hscope
    cases hp' : (w'.node n').parent with
    | some p' =>
      rw [hw'.forest.scopePath_of_parent hp'] at hscope
      simp at hscope
    | none =>
      have hself' : w'.root n' = n' := hw'.forest.root_eq_iff.mpr ⟨.refl, hp'⟩
      rw [hself, hself'] at hroot
      rw [hroot]

end Workspace

end Groundplan
