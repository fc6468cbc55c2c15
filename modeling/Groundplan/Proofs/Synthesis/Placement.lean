import Groundplan.Proofs.Synthesis.Collecting
import Groundplan.Proofs.Synthesis.Resolution

/-!
# Slots

The blocks of a stack take their slots one after the other. If all find theirs, each block is that of
its node and none claims the slot of one before it. If one does not, its properties are unfit or
beyond the limits, or an earlier block has its slot.
-/

namespace Groundplan

namespace Workspace

/-- The block is that of its node: kind, type, id and body are the node's own. -/
structure Places (w : Workspace) (p : Placed) : Prop where
  kind_eq : (w.node p.node).kind = .block p.kind
  typeTag_eq : p.typeTag = (w.node p.node).typeTag
  id_eq : p.id = w.logicalId p.node
  body_eq : p.body = w.bodyOf (w.propertiesOf p.node)

/-- The alias that the resolved properties of a node state; without one, nothing. -/
def aliasOf (w : Workspace) (n : NodeId) : Datum :=
  ((w.bodyOf (w.propertiesOf n)).field? "alias").getD .null

/-- Two nodes claim one slot: resources or data sources of one type and id, or outputs of one id. -/
def SameSlot (w : Workspace) (m n : NodeId) : Prop :=
  w.logicalId m = w.logicalId n ∧
    ((w.node m).kind = .block .output ∧ (w.node n).kind = .block .output ∨
      (w.node m).typeTag = (w.node n).typeTag ∧
        ((w.node m).kind = .block .resource ∧ (w.node n).kind = .block .resource ∨
          (w.node m).kind = .block .data ∧ (w.node n).kind = .block .data))

/-- Two nodes are configurations of one provider type with the same alias. -/
def SameAlias (w : Workspace) (m n : NodeId) : Prop :=
  (w.node m).kind = .block .provider ∧ (w.node n).kind = .block .provider ∧
    (w.node m).typeTag = (w.node n).typeTag ∧ (w.aliasOf m).same (w.aliasOf n) = true

variable {w : Workspace} {stack : NodeId}

/-- Blocks clash exactly if their nodes claim one slot, or one alias as providers. -/
theorem Places.clashes_iff {p q : Placed} (hp : w.Places p) (hq : w.Places q) :
    p.clashes q = true ↔ w.SameSlot p.node q.node ∨ w.SameAlias p.node q.node := by
  have halias {r : Placed} (hr : w.Places r) : r.providerAlias = w.aliasOf r.node := by
    rw [Placed.providerAlias, hr.body_eq, aliasOf]
  unfold Placed.clashes SameSlot SameAlias
  rw [halias hp, halias hq, hp.kind_eq, hq.kind_eq, hp.typeTag_eq, hq.typeTag_eq, hp.id_eq,
    hq.id_eq]
  cases p.kind <;> cases q.kind <;> simp [and_comm]

/-- A block that is resolved is that of its node. -/
theorem resolveBlock_eq_ok {n : NodeId} {p : Placed} (h : w.resolveBlock stack n = .ok p) :
    p.node = n ∧ w.Places p ∧
      Resolvable w stack (w.propertiesOf n) ∧
        (w.propertiesOf n).Fits w.naming w.limits.resolving := by
  obtain ⟨body, hbody, hblock⟩ := bind_eq_ok.mp h
  obtain ⟨hr, rfl⟩ := resolve_eq_ok hbody
  split at hblock
  · next kind hkind =>
    cases hblock
    exact ⟨rfl, ⟨hkind, rfl, rfl, rfl⟩, hr⟩
  · cases hblock

/-- A block that is not resolved has unfit properties, or is of no kind that documents hold. -/
theorem resolveBlock_eq_error {n : NodeId} {f : SynthesisFault}
    (h : w.resolveBlock stack n = .error f) :
    Fails w stack w.naming w.limits.resolving (w.propertiesOf n) f ∨
      ∀ k, (w.node n).kind ≠ .block k := by
  rcases bind_eq_error.mp h with hf | ⟨body, -, hblock⟩
  · exact .inl (fails_of_resolve hf)
  · split at hblock
    · cases hblock
    · next hkind => exact .inr hkind

/-- A block that finds its slot is that of its node, and none before it has that slot. -/
theorem placeBlock_eq_ok {before : List Placed} {n : NodeId} {p : Placed}
    (h : w.placeBlock stack before n = .ok p) :
    p.node = n ∧ w.Places p ∧
      (Resolvable w stack (w.propertiesOf n) ∧ (w.propertiesOf n).Fits w.naming w.limits.resolving) ∧
      ∀ q ∈ before, p.clashes q = false := by
  obtain ⟨q, hq, -⟩ := bind_eq_ok.mp h
  rw [w.placeBlock_of_resolveBlock hq] at h
  split at h
  · cases h
  · next hfree =>
    cases h
    obtain ⟨hn, hplaces, hr⟩ := resolveBlock_eq_ok hq
    exact ⟨hn, hplaces, hr, by simpa using hfree⟩

/-- A block that finds no slot is not resolved, is of no kind that documents hold, or finds its slot
taken. -/
theorem placeBlock_eq_error {before : List Placed} {n : NodeId} {f : SynthesisFault}
    (h : w.placeBlock stack before n = .error f) :
    Fails w stack w.naming w.limits.resolving (w.propertiesOf n) f ∨
      (∀ k, (w.node n).kind ≠ .block k) ∨
        ∃ p, p.node = n ∧ w.Places p ∧ (∃ q ∈ before, p.clashes q = true) ∧ f = w.takenFault p := by
  rcases bind_eq_error.mp h with hf | ⟨p, hp, -⟩
  · exact (resolveBlock_eq_error hf).imp_right .inl
  · rw [w.placeBlock_of_resolveBlock hp] at h
    split at h
    · next hany =>
      cases h
      obtain ⟨hn, hplaces, -⟩ := resolveBlock_eq_ok hp
      exact .inr (.inr ⟨p, hn, hplaces, List.any_eq_true.mp hany, rfl⟩)
    · cases h

/-- Blocks in their slots, with the nodes they are of. -/
structure Settled (w : Workspace) (stack : NodeId) (nodes : List NodeId) (placed : List Placed) :
    Prop where
  nodes_eq : placed.map (·.node) = nodes
  places : ∀ p ∈ placed, w.Places p
  resolvable : ∀ n ∈ nodes, Resolvable w stack (w.propertiesOf n)
  free : placed.Pairwise fun q p => p.clashes q = false

/-- Each block is of one of the nodes. -/
theorem Settled.mem_nodes {nodes : List NodeId} {placed : List Placed}
    (hs : w.Settled stack nodes placed) {p : Placed} (hp : p ∈ placed) : p.node ∈ nodes :=
  hs.nodes_eq ▸ List.mem_map_of_mem hp

/-- Each node has a block. -/
theorem Settled.exists_places {nodes : List NodeId} {placed : List Placed}
    (hs : w.Settled stack nodes placed) {n : NodeId} (hn : n ∈ nodes) :
    ∃ p ∈ placed, w.Places p ∧ p.node = n := by
  rw [← hs.nodes_eq] at hn
  obtain ⟨p, hp, rfl⟩ := List.mem_map.mp hn
  exact ⟨p, hp, hs.places p hp, rfl⟩

private theorem Settled.append {nodes : List NodeId} {before : List Placed}
    (hb : w.Settled stack nodes before) {n : NodeId} {p : Placed}
    (hp : w.placeBlock stack before n = .ok p) :
    w.Settled stack (nodes ++ [n]) (before ++ [p]) := by
  obtain ⟨hn, hplaces, ⟨hr, -⟩, hfree⟩ := placeBlock_eq_ok hp
  refine ⟨by simp [hb.nodes_eq, hn], ?_, ?_, ?_⟩
  · exact List.forall_mem_append.mpr ⟨hb.places, List.forall_mem_singleton.mpr hplaces⟩
  · exact List.forall_mem_append.mpr ⟨hb.resolvable, List.forall_mem_singleton.mpr hr⟩
  · refine List.pairwise_append.mpr ⟨hb.free, List.pairwise_singleton _ _, ?_⟩
    intro q hq r hr
    rw [List.mem_singleton.mp hr]
    exact hfree q hq

private abbrev placeFrom (w : Workspace) (stack : NodeId) (before : List Placed)
    (nodes : List NodeId) : Except SynthesisFault (List Placed) :=
  nodes.foldlM (fun before n => do return before ++ [← w.placeBlock stack before n]) before

private theorem placeFrom_eq_ok {nodes done : List NodeId} {before placed : List Placed}
    (hb : w.Settled stack done before) (h : w.placeFrom stack before nodes = .ok placed) :
    w.Settled stack (done ++ nodes) placed := by
  induction nodes generalizing done before with
  | nil =>
    cases h
    rwa [List.append_nil]
  | cons n nodes ih =>
    rw [placeFrom, List.foldlM_cons] at h
    obtain ⟨_, hstep, h⟩ := bind_eq_ok.mp h
    obtain ⟨p, hp, he⟩ := bind_eq_ok.mp hstep
    cases he
    have hall := ih (hb.append hp) h
    rwa [List.append_assoc, List.singleton_append] at hall

private theorem fits_of_placeFrom_eq_ok {nodes : List NodeId} {before placed : List Placed}
    (h : w.placeFrom stack before nodes = .ok placed) :
    ∀ n ∈ nodes, (w.propertiesOf n).Fits w.naming w.limits.resolving := by
  induction nodes generalizing before with
  | nil => exact List.forall_mem_nil _
  | cons n nodes ih =>
    rw [placeFrom, List.foldlM_cons] at h
    obtain ⟨_, hstep, h⟩ := bind_eq_ok.mp h
    obtain ⟨p, hp, -⟩ := bind_eq_ok.mp hstep
    obtain ⟨-, -, ⟨-, hfits⟩, -⟩ := placeBlock_eq_ok hp
    exact List.forall_mem_cons.mpr ⟨hfits, ih h⟩

private theorem placeFrom_eq_error {nodes done : List NodeId} {before : List Placed}
    {f : SynthesisFault} (hb : w.Settled stack done before)
    (h : w.placeFrom stack before nodes = .error f) :
    (∃ n ∈ nodes, Fails w stack w.naming w.limits.resolving (w.propertiesOf n) f ∨
      ∀ k, (w.node n).kind ≠ .block k) ∨
      ∃ q p, [q.node, p.node].Sublist (done ++ nodes) ∧ w.Places q ∧ w.Places p ∧
        p.clashes q = true ∧ f = w.takenFault p := by
  induction nodes generalizing done before with
  | nil => cases h
  | cons n nodes ih =>
    rw [placeFrom, List.foldlM_cons] at h
    rcases bind_eq_error.mp h with hstep | ⟨_, hstep, h⟩
    · rcases bind_eq_error.mp hstep with hp | ⟨_, _, he⟩
      · rcases placeBlock_eq_error hp with hu | hk | ⟨p, rfl, hp, ⟨q, hq, hc⟩, hf⟩
        · exact .inl ⟨n, List.mem_cons_self, .inl hu⟩
        · exact .inl ⟨n, List.mem_cons_self, .inr hk⟩
        · refine .inr ⟨q, p, ?_, hb.places q hq, hp, hc, hf⟩
          exact (List.singleton_sublist.mpr (hb.mem_nodes hq)).append
            (List.singleton_sublist.mpr List.mem_cons_self)
      · cases he
    · obtain ⟨p, hp, he⟩ := bind_eq_ok.mp hstep
      cases he
      rcases ih (hb.append hp) h with ⟨m, hm, hu⟩ | hc
      · exact .inl ⟨m, List.mem_cons_of_mem _ hm, hu⟩
      · rw [List.append_assoc, List.singleton_append] at hc
        exact .inr hc

private theorem settled_nil : w.Settled stack [] [] where
  nodes_eq := rfl
  places := by simp
  resolvable := by simp
  free := .nil

/-- If all blocks find their slots, they are those of the stack's nodes in order. -/
theorem placeAll_eq_ok {placed : List Placed} (h : w.placeAll stack = .ok placed) :
    w.Settled stack (w.blockNodes stack) placed :=
  placeFrom_eq_ok settled_nil h

/-- If all blocks find their slots, nothing in their properties is beyond the limits. -/
theorem fits_of_placeAll_eq_ok {placed : List Placed} (h : w.placeAll stack = .ok placed) :
    ∀ n ∈ w.blockNodes stack, (w.propertiesOf n).Fits w.naming w.limits.resolving :=
  fits_of_placeFrom_eq_ok h

/-- If not, one is not resolved, is of no kind that documents hold, or finds its slot taken. -/
theorem placeAll_eq_error {f : SynthesisFault} (h : w.placeAll stack = .error f) :
    (∃ n ∈ w.blockNodes stack, Fails w stack w.naming w.limits.resolving (w.propertiesOf n) f ∨
      ∀ k, (w.node n).kind ≠ .block k) ∨
      ∃ q p, [q.node, p.node].Sublist (w.blockNodes stack) ∧ w.Places q ∧ w.Places p ∧
        p.clashes q = true ∧ f = w.takenFault p :=
  placeFrom_eq_error settled_nil h

/-- Of nodes in their slots, none claims the slot or alias of one before it. -/
theorem Settled.not_claimed {nodes : List NodeId} {placed : List Placed}
    (hs : w.Settled stack nodes placed) {m n : NodeId} (hmn : [m, n].Sublist nodes) :
    ¬ w.SameSlot n m ∧ ¬ w.SameAlias n m := by
  rw [← hs.nodes_eq] at hmn
  obtain ⟨pair, hpair, he⟩ := List.sublist_map_iff.mp hmn
  match pair, he with
  | [q, p], he =>
    simp only [List.map_cons, List.map_nil, List.cons.injEq, and_true] at he
    obtain ⟨rfl, rfl⟩ := he
    have hfree := List.pairwise_iff_forall_sublist.mp hs.free hpair
    have hq := hs.places q (hpair.subset (by simp))
    have hp := hs.places p (hpair.subset (by simp))
    constructor
    · intro hslot
      rw [(hp.clashes_iff hq).mpr (.inl hslot)] at hfree
      cases hfree
    · intro halias
      rw [(hp.clashes_iff hq).mpr (.inr halias)] at hfree
      cases hfree

end Workspace

end Groundplan
