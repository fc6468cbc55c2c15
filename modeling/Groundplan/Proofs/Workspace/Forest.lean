import Groundplan.Proofs.Workspace.Growth
import Mathlib.Data.List.Nodup

/-!
# Trees

In every workspace that is reached, a node is younger than its parent, and a node's children are
those whose parent it is, each once and in the order of their age; its index holds them once more,
under their ids. So no node is above itself, the way up from a node ends at its root, and a walk from
a node meets exactly the nodes below it, each once, before its children, and these in order.
-/

namespace Groundplan.Workspace

variable {w w' : Workspace}

/-- Parents are older than their children, both know each other, and the children are indexed by the
ids that they have. -/
structure Forest (w : Workspace) : Prop where
  parent_lt : ∀ {n p : NodeId}, (w.node n).parent = some p → p < n
  mem_children : ∀ {n c : NodeId}, c ∈ (w.node n).children ↔ (w.node c).parent = some n
  sorted : ∀ n : NodeId, (w.node n).children.Pairwise (· < ·)
  index_eq : ∀ n : NodeId,
    (w.node n).index = (w.node n).children.reverse.map fun c => ((w.node c).id, c)

/-- The first node is the second or above it. -/
inductive Above (w : Workspace) (a : NodeId) : NodeId → Prop
  | refl : Above w a a
  | step {p n : NodeId} (hp : (w.node n).parent = some p) (ha : Above w a p) : Above w a n

/-- A node with a parent is there. -/
theorem lt_size_of_parent {n p : NodeId} (h : (w.node n).parent = some p) :
    n < w.nodes.size :=
  lt_size_of_node_ne fun hn => by
    rw [hn] at h
    cases h

/-- Children are there. -/
theorem Forest.lt_size_of_mem_children (hw : w.Forest) {n c : NodeId}
    (hc : c ∈ (w.node n).children) : c < w.nodes.size :=
  lt_size_of_parent (hw.mem_children.mp hc)

private theorem Forest.congr (hw : w.Forest)
    (hparent : ∀ n, (w'.node n).parent = (w.node n).parent)
    (hchildren : ∀ n, (w'.node n).children = (w.node n).children)
    (hindex : ∀ n, (w'.node n).index = (w.node n).index)
    (hid : ∀ n < w.nodes.size, (w'.node n).id = (w.node n).id) : w'.Forest where
  parent_lt h := hw.parent_lt (by rwa [hparent] at h)
  mem_children := by
    intro n c
    rw [hchildren, hparent]
    exact hw.mem_children
  sorted n := by
    rw [hchildren]
    exact hw.sorted n
  index_eq n := by
    rw [hindex, hchildren, hw.index_eq]
    refine List.map_congr_left fun c hc => ?_
    rw [hid c (hw.lt_size_of_mem_children (List.mem_reverse.mp hc))]

private theorem Forest.of_sameTrees (hw : w.Forest) (h : SameTrees w w') : w'.Forest :=
  hw.congr h.parent_eq h.children_eq h.index_eq fun n _ => h.id_eq n

private theorem Forest.withHeap (hw : w.Forest) (h : Heap) : (w.withHeap h).Forest :=
  hw.congr (fun _ => rfl) (fun _ => rfl) (fun _ => rfl) fun _ _ => rfl

private theorem Forest.withStack (hw : w.Forest) (a : AppId) (name : String) :
    (w.withStack a name).Forest := by
  -- a new stack is linked to nothing, as if it were not there
  have hkeep {α : Type} (f : Node → α) (hf : ∀ stack properties,
      f { id := name, stack := stack, properties := properties } = f {}) (n : NodeId) :
      f ((w.withStack a name).node n) = f (w.node n) := by
    rw [node_withStack]
    split
    · next hn => rw [hf, hn, node_of_size_le (Nat.le_refl _)]
    · rfl
  refine hw.congr (hkeep (·.parent) fun _ _ => rfl) (hkeep (·.children) fun _ _ => rfl)
    (hkeep (·.index) fun _ _ => rfl) fun n hn => ?_
  rw [node_withStack, if_neg (Nat.ne_of_lt hn)]

section withChild

variable (hw : w.Forest) {parent : NodeId} (hp : parent < w.nodes.size) {n : Node}
  (es : Entries Value)
include hw hp

/-- A new node is a child of its parent alone, and has no children yet. -/
private theorem Forest.mem_children_withChild (hn : n.children = []) {m c : NodeId} :
    c ∈ ((w.withChild parent n es).node m).children ↔
      ((w.withChild parent n es).node c).parent = some m := by
  have hne : parent ≠ w.nodes.size := Nat.ne_of_lt hp
  have hold {c p : NodeId} (hc : (w.node c).parent = some p) : c ≠ w.nodes.size ∧ p ≠ w.nodes.size :=
    have hlt := lt_size_of_parent hc
    ⟨Nat.ne_of_lt hlt, Nat.ne_of_lt (Nat.lt_trans (hw.parent_lt hc) hlt)⟩
  rw [parent_withChild hp, children_withChild hp]
  by_cases hm : m = w.nodes.size
  · subst hm
    have hnot : (w.node c).parent ≠ some w.nodes.size := fun h => (hold h).2 rfl
    by_cases hc : c = w.nodes.size <;> simp [hc, hn, hne, hnot]
  · by_cases hc : c = w.nodes.size
    · subst hc
      have hnot : w.nodes.size ∉ (w.node m).children := fun h =>
        (hold (hw.mem_children.mp h)).1 rfl
      by_cases hmp : m = parent
      · simp [hmp, hne]
      · simp [hm, hmp, hnot, Ne.symm hmp]
    · by_cases hmp : m = parent <;> simp [hm, hc, hmp, hne, hw.mem_children]

/-- A new node is younger than its siblings. -/
private theorem Forest.sorted_withChild (hn : n.children = []) (m : NodeId) :
    ((w.withChild parent n es).node m).children.Pairwise (· < ·) := by
  rw [children_withChild hp]
  split
  · simp [hn]
  · split
    · refine List.pairwise_append.mpr ⟨hw.sorted m, List.pairwise_singleton _ _, ?_⟩
      intro c hc d hd
      obtain rfl := List.mem_singleton.mp hd
      exact hw.lt_size_of_mem_children hc
    · exact hw.sorted m

/-- A new node is indexed by its parent under its id, before its siblings. -/
private theorem Forest.index_withChild_eq (hn : n.children = []) (hindex : n.index = [])
    (m : NodeId) : ((w.withChild parent n es).node m).index =
      ((w.withChild parent n es).node m).children.reverse.map
        fun c => (((w.withChild parent n es).node c).id, c) := by
  have hold : (w.node m).children.reverse.map (fun c => (((w.withChild parent n es).node c).id, c)) =
      (w.node m).index := by
    rw [hw.index_eq]
    refine List.map_congr_left fun c hc => ?_
    have hlt := hw.lt_size_of_mem_children (List.mem_reverse.mp hc)
    rw [id_withChild hp, if_neg (Nat.ne_of_lt hlt)]
  rw [index_withChild hp, children_withChild hp]
  split
  · simp [hn, hindex]
  · split
    · rw [List.reverse_concat, List.map_cons, hold, id_withChild hp, if_pos rfl]
    · exact hold.symm

private theorem Forest.withChild {es : Entries Value} (hn : w.Declared n es) :
    (w.withChild parent n es).Forest := by
  have hchildren : n.children = [] := by cases hn <;> rfl
  have hindex : n.index = [] := by cases hn <;> rfl
  refine ⟨?_, hw.mem_children_withChild hp es hchildren, hw.sorted_withChild hp es hchildren,
    hw.index_withChild_eq hp es hchildren hindex⟩
  intro m p hm
  rw [parent_withChild hp] at hm
  split at hm
  · next he =>
    cases hm
    exact he ▸ hp
  · exact hw.parent_lt hm

end withChild

/-- A step keeps trees. -/
theorem Forest.step {allowed : CellId → Prop} (hw : w.Forest) (h : w.Step allowed w') :
    w'.Forest := by
  cases h with
  | same => exact hw
  | app a _ => exact hw.of_sameTrees (sameTrees_pushApp w a)
  | stack a name => exact hw.withStack a name
  | child parent hp _ _ _ hn => exact hw.withChild hp hn
  | property n => exact (hw.withHeap _).of_sameTrees (sameTrees_markBuilding ..)
  | override n => exact (hw.withHeap _).of_sameTrees (sameTrees_markBuilding ..)
  | keep cell => exact hw.withHeap _
  | push list item => exact hw.withHeap _
  | put mapping key v => exact hw.withHeap _
  | closed locked => exact hw.of_sameTrees (sameTrees_foldl_close locked w)

private theorem forest_start : Forest {} where
  parent_lt := by
    intro n p h
    rw [node_start] at h
    cases h
  mem_children := by
    intro n c
    simp
  sorted n := by simp
  index_eq n := by simp

/-- What is reached consists of trees. -/
theorem Reached.forest (hw : Reached w) : w.Forest :=
  hw.invariant forest_start fun _ _ hw h => hw.step h

namespace Above

/-- What is above a parent is above the child. -/
theorem of_parent {a n p : NodeId} (hp : (w.node a).parent = some p) (h : w.Above a n) :
    w.Above p n := by
  induction h with
  | refl => exact .step hp .refl
  | step hm _ ih => exact .step hm ih

/-- A node that is above another is that node or above it through one of its children. -/
theorem eq_or_child {a n : NodeId} (h : w.Above a n) :
    n = a ∨ ∃ c, (w.node c).parent = some a ∧ w.Above c n := by
  induction h with
  | refl => exact .inl rfl
  | @step p n hp _ ih =>
    rcases ih with rfl | ⟨c, hc, hcp⟩
    · exact .inr ⟨n, hp, .refl⟩
    · exact .inr ⟨c, hc, .step hp hcp⟩

/-- What is above a node above another is above that. -/
theorem trans {a b n : NodeId} (hab : w.Above a b) (hbn : w.Above b n) : w.Above a n := by
  induction hbn with
  | refl => exact hab
  | step hp _ ih => exact .step hp ih

/-- Only itself is above a node without a parent. -/
theorem eq_of_root {a r : NodeId} (hr : (w.node r).parent = none) (h : w.Above a r) : a = r := by
  cases h with
  | refl => rfl
  | step hp =>
    rw [hr] at hp
    cases hp

/-- Of two nodes above a third, one is above the other. -/
theorem total {a b n : NodeId} (ha : w.Above a n) (hb : w.Above b n) :
    w.Above a b ∨ w.Above b a := by
  induction ha with
  | refl => exact .inr hb
  | @step p n hp ha ih =>
    cases hb with
    | refl => exact .inl (.step hp ha)
    | @step q _ hq hb =>
      rw [hp] at hq
      cases hq
      exact ih hb

end Above

private theorem downward_of_size_le {fuel : Nat} {n : NodeId} (hn : w.nodes.size ≤ n) :
    w.downward fuel n = [n] := by
  cases fuel with
  | zero => rfl
  | succ fuel => rw [downward, node_of_size_le hn, List.flatMap_nil]

private theorem sublist_flatMap_of_head {l : List NodeId} {f : NodeId → List NodeId}
    (hf : ∀ n, [n].Sublist (f n)) : l.Sublist (l.flatMap f) := by
  induction l with
  | nil => exact .refl _
  | cons n l ih => exact (hf n).append ih

namespace Forest

variable (hw : w.Forest)
include hw

/-- Nodes above are older. -/
theorem le_of_above {a n : NodeId} (h : w.Above a n) : a ≤ n := by
  induction h with
  | refl => exact Nat.le_refl _
  | step hp _ ih => exact Nat.le_trans ih (Nat.le_of_lt (hw.parent_lt hp))

/-- Nothing is below two siblings. -/
theorem eq_of_above_siblings {p c d n : NodeId} (hc : (w.node c).parent = some p)
    (hd : (w.node d).parent = some p) (hcn : w.Above c n) (hdn : w.Above d n) : c = d := by
  have key {a b : NodeId} (ha : (w.node a).parent = some p) (hb : (w.node b).parent = some p)
      (hab : w.Above a b) : a = b := by
    cases hab with
    | refl => rfl
    | step hq hap =>
      rw [hb] at hq
      cases hq
      exact absurd (hw.parent_lt ha) (Nat.not_lt_of_le (hw.le_of_above hap))
  rcases hcn.total hdn with h | h
  · exact key hc hd h
  · exact (key hd hc h).symm

/-- What is above a node that is there is there. -/
theorem lt_size_of_above {a n : NodeId} (hn : n < w.nodes.size) (h : w.Above a n) :
    a < w.nodes.size := Nat.lt_of_le_of_lt (hw.le_of_above h) hn

/-- A walk that is deep enough meets what is below, and nothing else. -/
theorem mem_downward_iff {fuel : Nat} {n m : NodeId} (hfuel : m ≤ n + fuel) :
    m ∈ w.downward fuel n ↔ w.Above n m := by
  induction fuel generalizing n with
  | zero =>
    simp only [downward, List.mem_singleton]
    constructor
    · rintro rfl
      exact .refl
    · intro h
      exact Nat.le_antisymm hfuel (hw.le_of_above h)
  | succ fuel ih =>
    simp only [downward, List.mem_cons, List.mem_flatMap]
    constructor
    · rintro (rfl | ⟨c, hc, hm⟩)
      · exact .refl
      · have hc := hw.mem_children.mp hc
        have hlt := hw.parent_lt hc
        exact .of_parent hc ((ih (by
          have hlt' : n + 1 ≤ c := hlt
          calc m ≤ n + 1 + fuel := by rw [Nat.add_right_comm]; exact hfuel
            _ ≤ c + fuel := Nat.add_le_add_right hlt' fuel)).mp hm)
    · intro h
      rcases h.eq_or_child with rfl | ⟨c, hc, hcm⟩
      · exact .inl rfl
      · have hlt : n + 1 ≤ c := hw.parent_lt hc
        refine .inr ⟨c, hw.mem_children.mpr hc, (ih ?_).mpr hcm⟩
        calc m ≤ n + 1 + fuel := by rw [Nat.add_right_comm]; exact hfuel
          _ ≤ c + fuel := Nat.add_le_add_right hlt fuel

/-- What a walk meets is below where it starts, however deep it goes. -/
theorem above_of_mem_downward {fuel : Nat} {n m : NodeId} (hm : m ∈ w.downward fuel n) :
    w.Above n m := by
  induction fuel generalizing n with
  | zero =>
    obtain rfl := List.mem_singleton.mp hm
    exact .refl
  | succ fuel ih =>
    simp only [downward, List.mem_cons, List.mem_flatMap] at hm
    rcases hm with rfl | ⟨c, hc, hm⟩
    · exact .refl
    · exact .of_parent (hw.mem_children.mp hc) (ih hm)

/-- A walk meets nothing twice. -/
theorem nodup_downward (fuel : Nat) (n : NodeId) : (w.downward fuel n).Nodup := by
  induction fuel generalizing n with
  | zero => exact List.nodup_singleton n
  | succ fuel ih =>
    rw [downward, List.nodup_cons]
    constructor
    · intro hn
      obtain ⟨c, hc, hm⟩ := List.mem_flatMap.mp hn
      have hle := hw.le_of_above (hw.above_of_mem_downward hm)
      exact absurd (hw.parent_lt (hw.mem_children.mp hc)) (Nat.not_lt_of_le hle)
    · rw [List.nodup_flatMap]
      refine ⟨fun c _ => ih c, (hw.sorted n).imp_of_mem ?_⟩
      intro c d hc hd hlt m hmc hmd
      have he := hw.eq_of_above_siblings (hw.mem_children.mp hc) (hw.mem_children.mp hd)
        (hw.above_of_mem_downward hmc) (hw.above_of_mem_downward hmd)
      exact Nat.ne_of_lt hlt he

/-- A walk meets exactly what is below its start. -/
theorem mem_walk_iff {n m : NodeId} (hn : n < w.nodes.size) : m ∈ w.walk n ↔ w.Above n m := by
  constructor
  · exact hw.above_of_mem_downward
  · intro h
    have hm : m < w.nodes.size := by
      cases h with
      | refl => exact hn
      | step hp => exact lt_size_of_parent hp
    exact (hw.mem_downward_iff (Nat.le_trans (Nat.le_of_lt hm) (Nat.le_add_left _ _))).mpr h

/-- The blocks below a node are those nodes below it that are no groups. -/
theorem mem_blockNodes_iff {n m : NodeId} (hn : n < w.nodes.size) :
    m ∈ w.blockNodes n ↔ w.Above n m ∧ (w.node m).kind ≠ .group := by
  simp [blockNodes, hw.mem_walk_iff hn]

/-- Each block below a node is listed once. -/
theorem nodup_blockNodes (n : NodeId) : (w.blockNodes n).Nodup :=
  (hw.nodup_downward _ n).filter _

private theorem exists_getLast?_upward {fuel n : Nat} (hfuel : n ≤ fuel) :
    ∃ r, (w.upward fuel n).getLast? = some r ∧ w.Above r n ∧ (w.node r).parent = none := by
  induction fuel generalizing n with
  | zero =>
    refine ⟨n, rfl, .refl, ?_⟩
    cases hp : (w.node n).parent with
    | none => rfl
    | some p =>
      exact absurd (hw.parent_lt hp) (Nat.not_lt_of_le (Nat.le_trans hfuel (Nat.zero_le p)))
  | succ fuel ih =>
    rw [upward]
    cases hp : (w.node n).parent with
    | none => exact ⟨n, rfl, .refl, hp⟩
    | some p =>
      have hlt : p < fuel + 1 := Nat.lt_of_lt_of_le (hw.parent_lt hp) hfuel
      obtain ⟨r, hlast, ha, hr⟩ := ih (Nat.le_of_lt_succ hlt)
      refine ⟨r, ?_, .step hp ha, hr⟩
      rw [List.getLast?_cons, hlast]
      rfl

/-- The way up from a node ends at its root. -/
theorem root_spec (n : NodeId) : w.Above (w.root n) n ∧ (w.node (w.root n)).parent = none := by
  rw [root, lineage]
  by_cases hn : n ≤ w.nodes.size
  · obtain ⟨r, hlast, ha, hr⟩ := hw.exists_getLast?_upward hn
    rw [List.getLastD_eq_getLast?, hlast]
    exact ⟨ha, hr⟩
  · -- nothing stands above a node that is not there
    have hp : (w.node n).parent = none := by
      rw [node_of_size_le (Nat.le_of_lt (Nat.lt_of_not_le hn))]
    cases w.nodes.size with
    | zero => exact ⟨.refl, hp⟩
    | succ fuel =>
      rw [upward, hp]
      exact ⟨.refl, hp⟩

theorem above_root (n : NodeId) : w.Above (w.root n) n := (hw.root_spec n).1

@[simp] theorem parent_root (n : NodeId) : (w.node (w.root n)).parent = none := (hw.root_spec n).2

/-- The root of a node is what stands above it and below nothing. -/
theorem root_eq_iff {r n : NodeId} : w.root n = r ↔ w.Above r n ∧ (w.node r).parent = none := by
  constructor
  · rintro rfl
    exact hw.root_spec n
  · rintro ⟨ha, hr⟩
    rcases (hw.above_root n).total ha with h | h
    · exact h.eq_of_root hr
    · exact (h.eq_of_root (hw.parent_root n)).symm

/-- A node has the root of what stands above it. -/
theorem root_eq_of_above {a n : NodeId} (h : w.Above a n) : w.root n = w.root a :=
  hw.root_eq_iff.mpr ⟨(hw.above_root a).trans h, hw.parent_root a⟩

/-- A node is its own root or one of its root's children is above it. -/
theorem children_root_ne_nil {n : NodeId} (h : w.root n ≠ n) :
    (w.node (w.root n)).children ≠ [] := by
  rcases (hw.above_root n).eq_or_child with he | ⟨c, hc, -⟩
  · exact absurd he.symm h
  · exact List.ne_nil_of_mem (hw.mem_children.mpr hc)

/-- Walks that are deep enough are the same. -/
theorem downward_congr {f g n : Nat} (hf : w.nodes.size ≤ n + f) (hg : w.nodes.size ≤ n + g) :
    w.downward f n = w.downward g n := by
  induction f generalizing n g with
  | zero => rw [downward_of_size_le (n := n) hf, downward_of_size_le (n := n) hf]
  | succ f ih =>
    cases g with
    | zero => rw [downward_of_size_le (n := n) hg, downward_of_size_le (n := n) hg]
    | succ g =>
      rw [downward, downward]
      congr 1
      apply List.flatMap_congr
      intro c hc
      have hlt : (n : Nat) < c := hw.parent_lt (hw.mem_children.mp hc)
      exact ih (by omega) (by omega)

/-- A walk meets a node and then walks from each of its children. -/
theorem walk_eq (n : NodeId) : w.walk n = n :: (w.node n).children.flatMap w.walk := by
  rw [walk, hw.downward_congr (g := w.nodes.size + 1) (Nat.le_add_left ..) (by omega), downward]
  rfl

/-- A walk from a node is part of the walk from what stands above it. -/
theorem walk_sublist {a n : NodeId} (h : w.Above a n) : (w.walk n).Sublist (w.walk a) := by
  induction h with
  | refl => exact .refl _
  | @step p n hp _ ih =>
    refine .trans ?_ ih
    rw [hw.walk_eq p, List.flatMap_def]
    have hmem : w.walk n ∈ (w.node p).children.map w.walk :=
      List.mem_map_of_mem (hw.mem_children.mpr hp)
    exact (List.sublist_flatten_of_mem hmem).cons _

/-- A walk meets a node before its children, and these in order. -/
theorem cons_children_sublist_walk {a n : NodeId} (h : w.Above a n) :
    (n :: (w.node n).children).Sublist (w.walk a) := by
  refine .trans ?_ (hw.walk_sublist h)
  rw [hw.walk_eq n]
  refine (sublist_flatMap_of_head fun c => ?_).cons_cons n
  rw [hw.walk_eq c]
  exact List.singleton_sublist.mpr List.mem_cons_self

/-- A walk stays as it is while the children of all nodes that it meets do. -/
theorem walk_congr (hsize : w.nodes.size ≤ w'.nodes.size) {s : NodeId}
    (hchildren : ∀ n, w.Above s n → (w'.node n).children = (w.node n).children) :
    w'.walk s = w.walk s := by
  have hdown (fuel : Nat) (n : NodeId) (hn : w.Above s n) :
      w'.downward fuel n = w.downward fuel n := by
    induction fuel generalizing n with
    | zero => rfl
    | succ fuel ih =>
      rw [downward, downward, hchildren n hn]
      congr 1
      apply List.flatMap_congr
      intro c hc
      exact ih c (.step (hw.mem_children.mp hc) hn)
  rw [walk, hdown _ s .refl]
  exact hw.downward_congr (Nat.le_trans hsize (Nat.le_add_left ..)) (Nat.le_add_left ..)

end Forest

section Grows

variable (hw : w.Forest) (h : Grows w w')
include hw h

/-- What is above a node stays above it. -/
theorem Above.mono {a n : NodeId} (hn : n < w.nodes.size) (ha : w.Above a n) : w'.Above a n := by
  induction ha with
  | refl => exact .refl
  | step hp _ ih =>
    refine .step ?_ (ih (Nat.lt_trans (hw.parent_lt hp) hn))
    rw [h.parent_eq hn, hp]

/-- Nodes keep their roots. -/
theorem Forest.root_eq_of_grows (hw' : w'.Forest) {n : NodeId} (hn : n < w.nodes.size) :
    w'.root n = w.root n := by
  refine hw'.root_eq_iff.mpr ⟨(hw.above_root n).mono hw h hn, ?_⟩
  rw [h.parent_eq (hw.lt_size_of_above hn (hw.above_root n)), hw.parent_root]

end Grows

end Groundplan.Workspace
