import Groundplan.Proofs.Workspace.Acceptance
import Groundplan.Proofs.Workspace.Stored

/-!
# Validated properties

Properties are checked when a declaration is made. While the caller writes no container that a node
holds, they stay what they were: every leaf that shows up in the properties of a node is supported,
and every mapping has only texts for keys, and not the empty one. A set of containers is sound if it
is closed under what they hold, all leaves in it are supported and all keys are such; what nodes
show is followed through each step by such a set.
-/

namespace Groundplan

namespace Heap

variable {h : Heap} {G G' : CellId → Prop}

/-- What a set of containers admits: its containers, and leaves that are supported. -/
def Inside (G : CellId → Prop) : Value → Prop
  | .atom a => a.Supported
  | .cell c => G c

theorem Inside.imp (hG : ∀ c, G c → G' c) {v : Value} (hv : Inside G v) : Inside G' v := by
  cases v with
  | atom a => exact hv
  | cell c => exact hG c hv

/-- A set of containers that admits all that they hold, and in which keys are names. -/
structure Sound (h : Heap) (G : CellId → Prop) : Prop where
  lt_size : ∀ {c : CellId}, G c → c < h.cells.size
  named : ∀ {c : CellId} {es : Entries Value}, G c → h.entries? c = some es → es.Named
  closed : ∀ {c : CellId} {v : Value}, G c → v ∈ h.parts c → Inside G v

/-- What a sound set reaches is in it. -/
theorem Sound.of_reaches (hs : h.Sound G) {v u : Value} (hv : Inside G v) (hr : h.Reaches v u) :
    Inside G u := by
  induction hr with
  | refl => exact hv
  | step hpart _ ih => exact ih (hs.closed hv hpart)

theorem Sound.union (hs : h.Sound G) (hs' : h.Sound G') : h.Sound fun c => G c ∨ G' c where
  lt_size hc := hc.elim hs.lt_size hs'.lt_size
  named hc hes := hc.elim (hs.named · hes) (hs'.named · hes)
  closed hc hv := hc.elim (fun hc => (hs.closed hc hv).imp fun _ => .inl)
    fun hc => (hs'.closed hc hv).imp fun _ => .inr

/-- A new container changes no sound set. -/
theorem Sound.alloc (hs : h.Sound G) (cell : Cell) : (h.alloc cell).1.Sound G where
  lt_size hc := by
    rw [size_alloc]
    exact Nat.lt_succ_of_lt (hs.lt_size hc)
  named hc hes := by
    rw [entries?_alloc h cell (hs.lt_size hc)] at hes
    exact hs.named hc hes
  closed hc hv := by
    rw [parts_alloc h cell (hs.lt_size hc)] at hv
    exact hs.closed hc hv

/-- A new mapping with names for keys joins a sound set that has what it holds. -/
theorem Sound.alloc_mapping (hs : h.Sound G) {es : Entries Value} (hnamed : es.Named)
    (hvalues : ∀ v ∈ es.values, Inside G v) :
    (h.alloc (.mapping es)).1.Sound fun c => G c ∨ c = h.cells.size where
  lt_size := by
    rw [size_alloc]
    rintro c (hc | rfl)
    · exact Nat.lt_succ_of_lt (hs.lt_size hc)
    · exact Nat.lt_succ_self _
  named := by
    rintro c es' (hc | rfl) hes
    · exact (hs.alloc _).named hc hes
    · rw [entries?_alloc_mapping] at hes
      cases hes
      exact hnamed
  closed := by
    rintro c v (hc | rfl) hv
    · exact ((hs.alloc _).closed hc hv).imp fun _ => .inl
    · rw [parts_of_entries? (entries?_alloc_mapping h es)] at hv
      exact (hvalues v hv).imp fun _ => .inl

/-- An entry under a name that leads into a sound set keeps it sound. -/
theorem Sound.setEntry (hs : h.Sound G) (id : CellId) {s : String} (hne : s ≠ "") {v : Value}
    (hv : Inside G v) : (h.setEntry id (.text s) v).Sound G where
  lt_size hc := by
    rw [size_setEntry]
    exact hs.lt_size hc
  named {c es'} hc hes := by
    by_cases hm : ∃ es, h.cells[id]? = some (.mapping es)
    · obtain ⟨es, hid⟩ := hm
      by_cases hb : h.Backs id c
      · obtain ⟨hold, hnew⟩ := entries?_setEntry_of_backs h id (.text s) v hid hb
        rw [hnew] at hes
        cases hes
        intro k hk
        rcases Entries.mem_keys_set hk with hk | rfl
        · exact hs.named hc hold k hk
        · exact ⟨s, rfl, hne⟩
      · rw [entries?_setEntry_of_not_backs h id _ v hb] at hes
        exact hs.named hc hes
    · rw [setEntry_of_not_mapping h id _ v fun es he => hm ⟨es, he⟩] at hes
      exact hs.named hc hes
  closed hc hu := by
    rcases mem_parts_setEntry hu with hu | ⟨rfl, -⟩
    · exact hs.closed hc hu
    · exact hv

/-- Writing a mapping that a sound set is not shown through keeps it sound. -/
theorem Sound.setEntry_of_not_backs (hs : h.Sound G) {id : CellId}
    (hid : ∀ c, G c → ¬ h.Backs id c) (key : Key) (v : Value) : (h.setEntry id key v).Sound G where
  lt_size hc := by
    rw [size_setEntry]
    exact hs.lt_size hc
  named hc hes := by
    rw [entries?_setEntry_of_not_backs h id key v (hid _ hc)] at hes
    exact hs.named hc hes
  closed hc hu := by
    rw [parts_setEntry_of_not_backs h id key v (hid _ hc)] at hu
    exact hs.closed hc hu

/-- Writing a list outside of a sound set keeps it sound. -/
theorem Sound.pushItem (hs : h.Sound G) {id : CellId} (hid : ¬ G id) (v : Value) :
    (h.pushItem id v).Sound G where
  lt_size hc := by
    rw [size_pushItem]
    exact hs.lt_size hc
  named hc hes := by
    rw [entries?_pushItem] at hes
    exact hs.named hc hes
  closed hc hu := by
    rcases mem_parts_pushItem hu with hu | ⟨-, rfl⟩
    · exact hs.closed hc hu
    · exact absurd hc hid

/-- Setting a nested entry in a sound set leads to a sound set. -/
theorem Sound.setNested (hs : h.Sound G) {id : CellId} (hid : G id) {segments : List String}
    (hsegments : ∀ s ∈ segments, s ≠ "") {v : Value} (hv : Inside G v) :
    ∃ G', (∀ c, G c → G' c) ∧ (h.setNested id segments v).Sound G' := by
  refine setNested_induction
    (P := fun h id => ∃ G', (∀ c, G c → G' c) ∧ h.Sound G' ∧ G' id)
    (Q := fun h => ∃ G', (∀ c, G c → G' c) ∧ h.Sound G')
    (fun h id ⟨G', hG, hs, _⟩ => ⟨G', hG, hs⟩) ?_ ?_ ⟨G, fun _ hc => hc, hs, hid⟩
  · intro h id segment hseg ⟨G', hG, hs, hid⟩
    have hfound : (h.foundAt id segment).Named ∧
        ∀ u ∈ (h.foundAt id segment).values, Inside G' u := by
      rcases foundAt_cases h id segment with he | ⟨c, hc, hes⟩
      · rw [he]
        exact ⟨Entries.named_nil, by simp [Entries.values]⟩
      · have hmem : G' c := hs.closed hid hc
        refine ⟨hs.named hmem hes, fun u hu => hs.closed hmem ?_⟩
        rwa [parts_of_entries? hes]
    have hcopy := hs.alloc_mapping hfound.1 hfound.2
    refine ⟨_, fun c hc => .inl (hG c hc), hcopy.setEntry id (hsegments _ hseg) ?_, .inr rfl⟩
    exact .inr rfl
  · intro h id segment hseg ⟨G', hG, hs, _⟩
    exact ⟨G', hG, hs.setEntry id (hsegments _ hseg) (hv.imp hG)⟩

end Heap

namespace Heap

variable {h : Heap}

/-- What valid values reach makes up a sound set. -/
theorem sound_reaches (hh : h.Closed) {vs : List Value}
    (hvs : ∀ v ∈ vs, v.Below h.cells.size ∧ h.Valid v) :
    h.Sound fun c => ∃ v ∈ vs, h.Reaches v (.cell c) where
  lt_size := by
    have hbelow {v u : Value} (hv : v.Below h.cells.size) (hr : h.Reaches v u) :
        u.Below h.cells.size := by
      induction hr with
      | refl => exact hv
      | step hpart _ ih => exact ih (hh _ _ hpart)
    rintro c ⟨v, hv, hr⟩
    exact hbelow (hvs v hv).1 hr
  named := by
    rintro c es ⟨v, hv, hr⟩ hes
    exact (hvs v hv).2.named hr hes
  closed := by
    rintro c u ⟨v, hv, hr⟩ hu
    cases u with
    | atom a => exact (hvs v hv).2.supported (hr.trans (.part hu))
    | cell d => exact ⟨v, hv, hr.trans (.part hu)⟩

/-- A valid value is admitted by the set that it reaches. -/
theorem Valid.inside {v : Value} (hv : h.Valid v) {vs : List Value} (hmem : v ∈ vs) :
    Inside (fun c => ∃ v ∈ vs, h.Reaches v (.cell c)) v := by
  cases v with
  | atom a => exact hv.supported (.refl _)
  | cell c => exact ⟨_, hmem, .refl _⟩

end Heap

namespace Workspace

variable {w w' : Workspace}

/-- The container shows up in the properties of a node, at some depth. -/
def Shown (w : Workspace) (c : CellId) : Prop :=
  ∃ n < w.nodes.size, w.heap.Reaches (w.node n).properties (.cell c)

/-- All leaves that nodes show are supported, and the keys of all mappings are names. -/
def Validated (w : Workspace) : Prop := w.heap.Sound w.Shown

/-- Nodes with properties in a sound set show only validated mappings. -/
theorem validated_of_sound {G : CellId → Prop} (hs : w.heap.Sound G)
    (hroots : ∀ n < w.nodes.size, Heap.Inside G (w.node n).properties) : w.Validated where
  lt_size := by
    rintro c ⟨n, hn, hr⟩
    exact hs.lt_size (hs.of_reaches (hroots n hn) hr)
  named := by
    rintro c es ⟨n, hn, hr⟩ hes
    exact hs.named (hs.of_reaches (hroots n hn) hr) hes
  closed := by
    rintro c v ⟨n, hn, hr⟩ hv
    cases v with
    | atom a => exact hs.of_reaches (hroots n hn) (hr.trans (.part hv))
    | cell d => exact ⟨n, hn, hr.trans (.part hv)⟩

/-- Nodes show the mappings that they keep their properties in. -/
private theorem Stored.inside_properties (hw : w.Stored) {G : CellId → Prop}
    (hG : ∀ c, w.Shown c → G c) {n : NodeId} (hn : n < w.nodes.size) :
    Heap.Inside G (w.node n).properties := by
  obtain ⟨c, es, hc, -⟩ := hw.own n hn
  have hshown : w.Shown c := ⟨n, hn, hc ▸ .refl _⟩
  rw [hc]
  exact hG c hshown

private theorem Validated.of_sameTrees (hw : w.Validated) (h : SameTrees w w') :
    w'.Validated := by
  have hshown (c : CellId) : w'.Shown c ↔ w.Shown c := by
    simp only [Shown, h.size_eq, h.heap_eq, h.properties_eq]
  unfold Validated
  rwa [h.heap_eq, funext fun c => propext (hshown c)]

private theorem Validated.withHeap (hstored : w.Stored) {h : Heap} {G : CellId → Prop}
    (hs : h.Sound G) (hG : ∀ c, w.Shown c → G c) : (w.withHeap h).Validated :=
  validated_of_sound (G := G) hs fun _ hn => hstored.inside_properties hG hn

private theorem Declared.fit {n : Node} {es : Entries Value} (h : w.Declared n es) :
    es.Named ∧ ∀ v ∈ es.values, w.heap.Valid v := by
  cases h with
  | group => exact ⟨Entries.named_nil, by simp [Entries.values]⟩
  | typed => exact ⟨Entries.named_nil, by simp [Entries.values]⟩
  | typedWith id kind typeTag htag hc hes hfit =>
    exact hfit.valid
  | output id hv hd hs hfit =>
    exact hfit.valid

/-- A new mapping of names that lead to accepted values joins what is shown. -/
private theorem Validated.alloc (hw : w.Validated) (hstored : w.Stored) {es : Entries Value}
    (hnamed : es.Named) (hvalues : ∀ v ∈ es.values, v.Below w.heap.cells.size ∧ w.heap.Valid v) :
    ∃ G, (w.heap.alloc (.mapping es)).1.Sound G ∧ (∀ c, w.Shown c → G c) ∧
      G w.heap.cells.size := by
  have hreach := Heap.sound_reaches hstored.tidy.closed hvalues
  have hunion := Heap.Sound.union hw hreach
  refine ⟨_, hunion.alloc_mapping hnamed ?_, fun c hc => .inl (.inl hc), .inr rfl⟩
  intro v hv
  exact ((hvalues v hv).2.inside hv).imp fun _ => .inr

private theorem Validated.withStack (hw : w.Validated) (hstored : w.Stored) (a : AppId)
    (name : String) : (w.withStack a name).Validated := by
  obtain ⟨G, hs, hG, hnew⟩ := hw.alloc hstored Entries.named_nil (by simp [Entries.values])
  apply validated_of_sound (G := G) hs
  intro m hm
  rw [size_withStack] at hm
  rw [node_withStack]
  split
  · exact hnew
  · next hne => exact hstored.inside_properties hG (Nat.lt_of_le_of_ne (Nat.le_of_lt_succ hm) hne)

private theorem Validated.withChild (hw : w.Validated) (hstored : w.Stored) {parent : NodeId}
    (hp : parent < w.nodes.size) {n : Node} {es : Entries Value} (hn : w.Declared n es) :
    (w.withChild parent n es).Validated := by
  obtain ⟨hnamed, hfit⟩ := hn.fit
  obtain ⟨hbelow, -, -⟩ := hn.entries hstored
  obtain ⟨G, hs, hG, hnew⟩ := hw.alloc hstored hnamed fun v hv => ⟨hbelow v hv, hfit v hv⟩
  apply validated_of_sound (G := G) hs
  intro m hm
  rw [size_withChild] at hm
  rw [properties_withChild hp]
  split
  · exact hnew
  · next hne => exact hstored.inside_properties hG (Nat.lt_of_le_of_ne (Nat.le_of_lt_succ hm) hne)

/-- An accepted value joins what is shown. -/
private theorem Validated.value (hw : w.Validated) (hstored : w.Stored) {v : Value}
    (hv : v.InScope w) (hfit : w.FitValue v) :
    ∃ G, w.heap.Sound G ∧ (∀ c, w.Shown c → G c) ∧ Heap.Inside G v := by
  have hvalid : w.heap.Valid v := hfit.valid
  have hreach := Heap.sound_reaches hstored.tidy.closed
    (List.forall_mem_singleton.mpr ⟨below_of_inScope hv, hvalid⟩)
  refine ⟨_, Heap.Sound.union hw hreach, fun c hc => .inl hc, ?_⟩
  exact (hvalid.inside (List.mem_singleton.mpr rfl)).imp fun _ => .inr

private theorem validated_step (hw : w.Validated) (hstored : w.Stored)
    (h : w.Step (fun c => ¬ w.Holds c) w') : w'.Validated := by
  cases h with
  | same => exact hw
  | app a _ => exact hw.of_sameTrees (sameTrees_pushApp w a)
  | stack a name => exact hw.withStack hstored a name
  | child parent hp _ _ _ hn => exact hw.withChild hstored hp hn
  | property n key v hn _ _ hkey hv hfit =>
    obtain ⟨G, hs, hG, hin⟩ := hw.value hstored hv hfit
    exact Validated.of_sameTrees (.withHeap hstored (hs.setEntry _ hkey hin) hG)
      (sameTrees_markBuilding ..)
  | override n segments v hn _ _ hsegments hv hfit =>
    obtain ⟨G, hs, hG, hin⟩ := hw.value hstored hv hfit
    have hmem : Heap.Inside G (.cell (w.propertyCell n)) := by
      rw [← hstored.properties_eq hn]
      exact hstored.inside_properties hG hn
    obtain ⟨G', hG', hs'⟩ := hs.setNested hmem hsegments hin
    exact Validated.of_sameTrees (.withHeap hstored hs' fun c hc => hG' c (hG c hc))
      (sameTrees_markBuilding ..)
  | keep cell hc => exact .withHeap hstored (Heap.Sound.alloc hw cell) fun _ hc => hc
  | push list item _ _ _ ha =>
    refine .withHeap hstored (Heap.Sound.pushItem hw ?_ item) fun _ hc => hc
    rintro ⟨n, hn, hr⟩
    exact ha ⟨n, hn, list, hr, .refl⟩
  | put mapping key v _ _ _ _ ha =>
    refine .withHeap hstored (Heap.Sound.setEntry_of_not_backs hw ?_ key v) fun _ hc => hc
    rintro c ⟨n, hn, hr⟩ hb
    exact ha ⟨n, hn, c, hr, hb⟩
  | closed locked => exact hw.of_sameTrees (sameTrees_foldl_close locked w)

private theorem validated_start : Validated {} where
  lt_size := fun ⟨_, hn, _⟩ => absurd hn (Nat.not_lt_zero _)
  named := fun ⟨_, hn, _⟩ => absurd hn (Nat.not_lt_zero _)
  closed := fun ⟨_, hn, _⟩ => absurd hn (Nat.not_lt_zero _)

/-- While the caller leaves alone what nodes hold, all mappings that nodes show are validated. -/
theorem Built.validated (hw : Built w) : w.Validated := by
  induction hw with
  | start => exact validated_start
  | step hw call hc hs ih => exact validated_step ih hw.reached.stored (step_perform hc hs)

end Workspace

end Groundplan
