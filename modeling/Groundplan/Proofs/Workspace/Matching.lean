import Groundplan.Proofs.Datum.Subset

/-!
# Asking one value for another

A value is asked about as deep as the predicate goes and no deeper, so for a value without loops the
answer is that about the datum it reads as. Among values that read as finite trees, to have what
another asks for is therefore a preorder that leaving out and adding entries respects, and two values
have what each other asks for exactly if they read as equal trees.
-/

namespace Groundplan

namespace Datum

/-! What two readings `f` and `g` of the same values answer alike about everything less deep than `n`,
containers of those values answer alike about everything one deeper. -/

section Readings

variable {f g : Value → Datum} {n : Nat} {e : Datum} {fixed : Bool}

private theorem satisfies_map_congr {vs : List Value} (he : e.depth < n + 1)
    (hfg : ∀ v ∈ vs, ∀ e : Datum, e.depth < n → (f v).satisfies e = (g v).satisfies e) :
    (sequence fixed (vs.map f)).satisfies e = (sequence fixed (vs.map g)).satisfies e := by
  cases e with
  | sequence _ es =>
    have hpair : ∀ p ∈ vs.zip es, (f p.1).satisfies p.2 = (g p.1).satisfies p.2 := fun p hp => by
      obtain ⟨hv, hd⟩ := List.of_mem_zip hp
      have hdepth := depthOfItems_le_iff.mp (Nat.le_refl _) _ hd
      refine hfg p.1 hv p.2 ?_
      simp only [depth] at he
      omega
    simp only [satisfies, List.length_map, satisfiesItems_eq_all, List.zip_map_left, List.all_map]
    congr 1
    rw [Bool.eq_iff_iff, List.all_eq_true, List.all_eq_true]
    exact forall₂_congr fun p hp => iff_of_eq (congrArg (· = true) (hpair p hp))
  | _ => rfl

private theorem satisfies_mapValues_congr {vs : Entries Value} (he : e.depth < n + 1)
    (hfg : ∀ v ∈ vs.values, ∀ e : Datum, e.depth < n → (f v).satisfies e = (g v).satisfies e) :
    (mapping fixed (vs.mapValues f)).satisfies e = (mapping fixed (vs.mapValues g)).satisfies e := by
  cases e with
  | mapping _ es =>
    simp only [satisfies, satisfiesEntries_eq_all, Entries.get?_mapValues, Option.map_map]
    rw [Bool.eq_iff_iff, List.all_eq_true, List.all_eq_true]
    refine forall₂_congr fun e he' => ?_
    have hdepth := depthOfEntries_le_iff.mp (Nat.le_refl _) _ he'
    cases hget : vs.get? e.1 with
    | none => rfl
    | some v =>
      obtain ⟨k, hmem, -⟩ := Entries.exists_mem_of_get? hget
      have hv : v ∈ vs.values := List.mem_map_of_mem hmem
      simp only [depth] at he
      simp only [Option.map_some, Function.comp_apply, hfg v hv e.2 (by omega)]
  | _ => rfl

end Readings

end Datum

namespace Heap

variable {h : Heap}

/-- Reading a container so many deep reads its parts one less deep. -/
theorem unrolled_cell_succ (depth : Nat) (id : CellId) :
    h.unrolled (depth + 1) (.cell id) = h.layer id (h.unrolled depth) := by
  simp only [unrolled, layer]
  split <;> simp [Entries.mapValues, *]

private theorem satisfies_layer_congr {id : CellId} {f g : Value → Datum} {n : Nat} {e : Datum}
    (he : e.depth < n + 1)
    (hfg : ∀ v ∈ h.parts id, ∀ e : Datum, e.depth < n → (f v).satisfies e = (g v).satisfies e) :
    (h.layer id f).satisfies e = (h.layer id g).satisfies e := by
  unfold parts at hfg
  unfold layer
  cases hcell : h.cells[id]? with
  | none => rfl
  | some cell =>
    rw [hcell] at hfg
    cases cell with
    | list items => exact Datum.satisfies_map_congr he hfg
    | tuple items => exact Datum.satisfies_map_congr he hfg
    | mapping es => exact Datum.satisfies_mapValues_congr he hfg
    | view base => exact Datum.satisfies_mapValues_congr he hfg

/-- About a predicate that is less deep, a value without loops answers as what it reads as. -/
private theorem satisfies_unrolled {n fuel : Nat} {inside : List CellId} {v : Value} {e : Datum}
    (hl : (h.read fuel inside v).LoopFree) (he : e.depth < n) :
    (h.unrolled n v).satisfies e = (h.read fuel inside v).satisfies e := by
  -- The fuel of the reading goes down with the depth; where it ends first, there is a loop.
  induction n generalizing fuel inside v e with
  | zero => omega
  | succ n ih =>
    cases v with
    | atom a => rw [read_atom, unrolled]
    | cell id =>
      cases fuel with
      | zero => exact absurd hl (Datum.not_loopFree_loop _)
      | succ fuel =>
        rw [read_cell_succ] at hl ⊢
        split at hl
        · exact absurd hl (Datum.not_loopFree_loop _)
        · next hid =>
          rw [if_neg hid, unrolled_cell_succ]
          exact satisfies_layer_congr he fun v hv e he => ih (loopFree_layer.mp hl v hv) he

end Heap

namespace Workspace

variable (w : Workspace) {a b c : Value}

/-- A value that reads as a tree has what another such value asks for exactly if the one tree contains
the other. -/
private theorem satisfies_iff_contains (ha : (w.heap.datum a).Tree) (hb : (w.heap.datum b).Tree) :
    w.satisfies a b = true ↔ (w.heap.datum a).Contains (w.heap.datum b) := by
  have hunrolled : (w.heap.unrolled ((w.heap.datum b).depth + 1) a).satisfies (w.heap.datum b) =
      (w.heap.datum a).satisfies (w.heap.datum b) :=
    Heap.satisfies_unrolled ha.loopFree (Nat.lt_succ_self _)
  rw [satisfies, predicate, hb.withTokens_eq, hunrolled]
  exact Datum.satisfies_iff_contains ha.allFields

/-- Among values that read as finite trees, having what another asks for is reflexive and
transitive, leaving entries out of what is asked for and adding entries to what is asked keep a yes,
and two values have what each other asks for exactly if they read as equal trees: mappings whatever
the order of their keys, sequences item by item, numbers by exact value and truth values by
themselves. -/
theorem satisfies_preorder (ha : (w.heap.datum a).Tree) (hb : (w.heap.datum b).Tree)
    (hc : (w.heap.datum c).Tree) :
    w.satisfies a a = true ∧
      (w.satisfies a b = true → w.satisfies b c = true → w.satisfies a c = true) ∧
      ((w.heap.datum b).Pruned (w.heap.datum c) → w.satisfies a b = true → w.satisfies a c = true) ∧
      ((w.heap.datum a).Pruned (w.heap.datum b) → w.satisfies b c = true → w.satisfies a c = true) ∧
      ((w.satisfies a b = true ∧ w.satisfies b a = true) ↔
        Datum.Like Datum.EqualScalars (w.heap.datum a) (w.heap.datum b)) := by
  rw [w.satisfies_iff_contains ha ha, w.satisfies_iff_contains ha hb, w.satisfies_iff_contains hb hc,
    w.satisfies_iff_contains ha hc, w.satisfies_iff_contains hb ha]
  exact ⟨ha.contains_self, fun hab hbc => hab.trans hb hbc,
    fun hpruned hab => hab.trans hb (hpruned.contains hb),
    fun hpruned hbc => (hpruned.contains ha).trans hb hbc, Datum.contains_antisymm_iff ha hb⟩

/-- A workspace that holds the properties of a subnet, a part of them, and a part of that. -/
def subnetParts : Workspace where
  heap :=
    { cells :=
        #[.list [.text "a", .scalar (.int 1)], .tuple [.text "a", .scalar (.int 1)],
          .mapping [(.text "zones", .cell 0), (.text "public", .scalar (.bool true))],
          .mapping [(.text "zones", .cell 1)], .mapping []] }

/-- The properties of a subnet have what a part of them asks for, and so what a part of that does. -/
theorem satisfies_preorder_subnet :
    subnetParts.satisfies (.cell 2) (.cell 2) = true ∧
      subnetParts.satisfies (.cell 2) (.cell 3) = true ∧
      subnetParts.satisfies (.cell 3) (.cell 4) = true ∧
      subnetParts.satisfies (.cell 2) (.cell 4) = true := by
  have hzones {fixed : Bool} : Datum.Tree (.sequence fixed [.text "a", .int 1]) :=
    .sequence (List.forall_mem_cons.mpr ⟨.scalar nofun, List.forall_mem_singleton.mpr (.scalar nofun)⟩)
  have hwhole : (subnetParts.heap.datum (.cell 2)).Tree :=
    .mapping (by decide +kernel) (List.forall_mem_cons.mpr
      ⟨hzones, List.forall_mem_singleton.mpr (.scalar nofun)⟩)
  have hpart : (subnetParts.heap.datum (.cell 3)).Tree :=
    .mapping (by decide +kernel) (List.forall_mem_singleton.mpr hzones)
  have hnothing : (subnetParts.heap.datum (.cell 4)).Tree := .mapping (by decide +kernel) nofun
  have hab : subnetParts.satisfies (.cell 2) (.cell 3) = true := by decide +kernel
  have hbc : subnetParts.satisfies (.cell 3) (.cell 4) = true := by decide +kernel
  obtain ⟨hself, htrans, -⟩ := subnetParts.satisfies_preorder hwhole hpart hnothing
  exact ⟨hself, hab, hbc, htrans hab hbc⟩

end Workspace

end Groundplan
