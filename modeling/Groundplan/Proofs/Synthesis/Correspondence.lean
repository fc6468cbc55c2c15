import Groundplan.Proofs.Datum.Likeness
import Groundplan.Proofs.Synthesis.Defects
import Groundplan.Proofs.Synthesis.Layout
import Groundplan.Proofs.Workspace.Acceptance
import Groundplan.Proofs.Workspace.Paths

/-!
# Stacks that correspond

Two stacks of one name correspond if each block of either has a block of the other with its path,
kind, type and properties; the order in which blocks stand and in which properties were set does not
matter. A reference corresponds to one of the same attribute of the node with the same path. Stacks
that correspond have the same tokens and logical ids, so they have the same defects.
-/

namespace Groundplan

/-- Scalars that are the same are both supported or both not. -/
theorem Scalar.supported_of_same {a b : Scalar} (h : a.same b = true)
    (ha : (Atom.scalar a).Supported) : (Atom.scalar b).Supported := by
  rcases Scalar.same_iff.mp h with rfl | ⟨u, -, hu⟩
  · exact ha
  · cases b with
    | float y =>
      have hy : y.signedUnits? = some u := hu
      show y.isFinite = true
      rw [← Binary64.signedUnits?_isSome, hy]
      rfl
    | _ => trivial

namespace Workspace

/-- Atoms of properties that mean the same in two stacks: scalars that are the same, references to one
attribute of nodes of one path, references that leave the stack, and what no document holds. -/
inductive SameMeaning (w w' : Workspace) (s s' : NodeId) : Atom → Atom → Prop
  | scalar {a b : Scalar} (h : a.same b = true) : SameMeaning w w' s s' (.scalar a) (.scalar b)
  | inside {r r' : Reference} (hr : w.root r.target = s) (hr' : w'.root r'.target = s')
      (hpath : w.path r.target = w'.path r'.target) (hattr : r.attr = r'.attr) :
      SameMeaning w w' s s' (.reference r) (.reference r')
  | outside {r r' : Reference} (hr : w.root r.target ≠ s) (hr' : w'.root r'.target ≠ s') :
      SameMeaning w w' s s' (.reference r) (.reference r')
  | unsupported {a b : Atom} (ha : ¬ a.Supported) (hb : ¬ b.Supported) : SameMeaning w w' s s' a b

/-- Nodes of two stacks with one path, kind, type and properties, in whatever order these were set. -/
structure Counterparts (w w' : Workspace) (s s' n n' : NodeId) : Prop where
  path_eq : w.path n = w'.path n'
  kind_eq : (w.node n).kind = (w'.node n').kind
  typeTag_eq : (w.node n).typeTag = (w'.node n').typeTag
  properties_like :
    Datum.Like (SameMeaning w w' s s') (w.propertiesOf n) (w'.propertiesOf n')

/-- Stacks of one name of which each block has its counterpart in the other, in whatever order. -/
structure Correspond (w w' : Workspace) (s s' : NodeId) : Prop where
  name_eq : (w.node s).id = (w'.node s').id
  forth : ∀ n ∈ w.blockNodes s, ∃ n' ∈ w'.blockNodes s', Counterparts w w' s s' n n'
  back : ∀ n' ∈ w'.blockNodes s', ∃ n ∈ w.blockNodes s, Counterparts w w' s s' n n'

variable {w w' : Workspace} {s s' n n' m m' : NodeId}

theorem SameMeaning.symm {a b : Atom} (h : SameMeaning w w' s s' a b) :
    SameMeaning w' w s' s b a := by
  cases h with
  | scalar h => exact .scalar (Scalar.same_symm h)
  | inside hr hr' hpath hattr => exact .inside hr' hr hpath.symm hattr.symm
  | outside hr hr' => exact .outside hr' hr
  | unsupported ha hb => exact .unsupported hb ha

theorem Counterparts.symm (h : Counterparts w w' s s' n n') : Counterparts w' w s' s n' n where
  path_eq := h.path_eq.symm
  kind_eq := h.kind_eq.symm
  typeTag_eq := h.typeTag_eq.symm
  properties_like := h.properties_like.symm.imp_within fun _ _ _ => SameMeaning.symm

theorem Correspond.symm (h : Correspond w w' s s') : Correspond w' w s' s where
  name_eq := h.name_eq.symm
  forth n' hn' := (h.back n' hn').imp fun _ hn => ⟨hn.1, hn.2.symm⟩
  back n hn := (h.forth n hn).imp fun _ hn' => ⟨hn'.1, hn'.2.symm⟩

/-- What stands for an atom that has its meaning in a stack that becomes a document is supported. -/
theorem SameMeaning.supported {a b : Atom} (h : SameMeaning w w' s s' a b) (ha : a.Supported) :
    b.Supported := by
  cases h with
  | scalar h => exact Scalar.supported_of_same h ha
  | inside => trivial
  | outside => trivial
  | unsupported hna => exact absurd ha hna

/-- No mapping in the properties of a node has a key twice. -/
theorem Reached.keyed_propertiesOf (hw : Reached w) (n : NodeId) : (w.propertiesOf n).Keyed := by
  refine (Heap.allKeys_datum_iff .nil).mpr fun c es _ hes => ?_
  exact Entries.distinct_iff_keys.mp (hw.stored.tidy.entries hes)

/-- A group has no type. -/
theorem Reached.typeTag_of_group (hw : Reached w) (hgroup : (w.node n).kind = .group) :
    (w.node n).typeTag = none := by
  by_cases hn : n < w.nodes.size
  · have hcore : ∀ n < w.nodes.size,
        (w.node n).core.kind = .group → (w.node n).core.typeTag = none := by
      refine hw.growth_invariant (P := fun w => ∀ n < w.nodes.size,
        (w.node n).core.kind = .group → (w.node n).core.typeTag = none) ?_ ?_
      · exact fun n hn => absurd hn (Nat.not_lt_zero n)
      · intro w w' _ hw h
        refine h.forall_core (P := fun n => n.kind = .group → n.typeTag = none)
          (fun _ _ _ _ _ => rfl) (fun _ _ _ _ hn _ hkind => ?_) hw
        cases hn with
        | group => rfl
        | typed => cases hkind
        | typedWith => cases hkind
        | output => cases hkind
    have hnone := hcore n hn
    rw [Node.kind_core, Node.typeTag_core] at hnone
    exact hnone hgroup
  · rw [node_of_size_le (Nat.le_of_not_lt hn)]

/-- The blocks of a stack are the nodes of its tree that are no groups. -/
theorem Reached.mem_blockNodes_iff (hw : Reached w) (hs : (w.node s).isStack = true) :
    n ∈ w.blockNodes s ↔ w.root n = s ∧ (w.node n).kind ≠ .group := by
  have hlt := lt_size_of_isStack hs
  rw [hw.forest.mem_blockNodes_iff hlt, hw.forest.root_eq_iff,
    and_iff_left ((hw.trees.parent_eq_none_iff s hlt).mpr hs)]

/-- What belongs to a stack is there. -/
theorem Reached.lt_size_of_root_eq (hw : Reached w) (hs : (w.node s).isStack = true)
    (hn : w.root n = s) : n < w.nodes.size := by
  cases (hw.forest.root_eq_iff.mp hn).1 with
  | refl => exact lt_size_of_isStack hs
  | step hp => exact lt_size_of_parent hp

namespace Correspond

variable (h : Correspond w w' s s') (hw : Reached w) (hw' : Reached w')
  (hs : (w.node s).isStack = true) (hs' : (w'.node s').isStack = true)

section Tokens

include h hw hw' hs hs'

/-- Nodes of one path are of one kind and type. -/
private theorem same_of_path_eq (hn : w.root n = s) (hn' : w'.root n' = s')
    (hpath : w.path n = w'.path n') :
    (w.node n).kind = (w'.node n').kind ∧ (w.node n).typeTag = (w'.node n').typeTag := by
  by_cases hgroup : (w.node n).kind = .group
  · by_cases hgroup' : (w'.node n').kind = .group
    · rw [hgroup, hgroup', hw.typeTag_of_group hgroup, hw'.typeTag_of_group hgroup']
      exact ⟨rfl, rfl⟩
    · -- a block has its counterpart, which has the same path
      have hmem := (hw'.mem_blockNodes_iff hs').mpr ⟨hn', hgroup'⟩
      obtain ⟨m, hm, hc⟩ := h.back n' hmem
      have hroot := ((hw.mem_blockNodes_iff hs).mp hm).1
      obtain rfl := hw.eq_of_path_eq (hw.lt_size_of_root_eq hs hroot)
        (hw.lt_size_of_root_eq hs hn) (hroot.trans hn.symm) (hc.path_eq.trans hpath.symm)
      exact ⟨hc.kind_eq, hc.typeTag_eq⟩
  · have hmem := (hw.mem_blockNodes_iff hs).mpr ⟨hn, hgroup⟩
    obtain ⟨m', hm', hc⟩ := h.forth n hmem
    have hroot := ((hw'.mem_blockNodes_iff hs').mp hm').1
    obtain rfl := hw'.eq_of_path_eq (hw'.lt_size_of_root_eq hs' hroot)
      (hw'.lt_size_of_root_eq hs' hn') (hroot.trans hn'.symm) (hc.path_eq.symm.trans hpath)
    exact ⟨hc.kind_eq, hc.typeTag_eq⟩

/-- References that correspond have one token. -/
private theorem token_eq {r r' : Reference} (hr : w.root r.target = s)
    (hr' : w'.root r'.target = s') (hpath : w.path r.target = w'.path r'.target)
    (hattr : r.attr = r'.attr) : w.token r = w'.token r' := by
  obtain ⟨hkind, htype⟩ := h.same_of_path_eq hw hw' hs hs' hr hr' hpath
  have hid := hw.logicalId_eq_of_path_eq hw' (hw.lt_size_of_root_eq hs hr)
    (hw'.lt_size_of_root_eq hs' hr') hpath
  simp only [token, hkind, htype, hid, hattr]

/-- What corresponds to something that becomes a body becomes a body that is like it. -/
theorem like_bodyOf {d d' : Datum} (hd : Resolvable w s d)
    (hlike : d.Like (SameMeaning w w' s s') d') :
    Datum.Like Datum.SameScalars (w.bodyOf d) (w'.bodyOf d') := by
  refine Datum.Like.relabel (R := fun a b => SameMeaning w w' s s' a b ∧
    a.Supported ∧ ∀ r, a = .reference r → w.root r.target = s) w.relabels_bodyOf
    w'.relabels_bodyOf ?_ (hlike.imp_within fun a b ha hab => ⟨hab, hd.supported ha, ?_⟩)
  · rintro a b ⟨hab, hsupported, hroot⟩
    cases hab with
    | scalar hsame => exact .atom (.scalar hsame)
    | @inside r r' hr hr' hpath hattr =>
      have htoken := h.token_eq hw hw' hs hs' hr hr' hpath hattr
      exact .atom (.scalar (by rw [htoken, Scalar.same_self]))
    | outside hr => exact absurd (hroot _ rfl) hr
    | unsupported hna => exact absurd hsupported hna
  · rintro r rfl
    exact hd.root_eq ha

/-- Aliases of what becomes bodies are alike. -/
theorem like_aliasOf (hn : Resolvable w s (w.propertiesOf n))
    (hc : Counterparts w w' s s' n n') :
    Datum.Like Datum.SameScalars (w.aliasOf n) (w'.aliasOf n') :=
  (h.like_bodyOf hw hw' hs hs' hn hc.properties_like).getD_field?
    (.atom (.scalar (Scalar.same_self _))) _

end Tokens

end Correspond

/-- Without defects of its own, the properties of a block become a body. -/
theorem resolvable_of_not_has (hno : ∀ d, ¬ w.Has s d) (hn : n ∈ w.blockNodes s) :
    Resolvable w s (w.propertiesOf n) where
  loopFree := Heap.loopFree_datum_iff.mpr fun c hr hself =>
    hno .selfContaining ⟨n, hn, c, hr, hself⟩
  supported {a} ha := by
    by_contra hsupported
    have hne : a ≠ .scalar .null := by
      rintro rfl
      exact hsupported trivial
    exact hno .unsupported ⟨n, hn, a, (Heap.within_atom_datum_iff hne).mp ha, hsupported⟩
  root_eq {r} hr := by
    by_contra hroot
    exact hno .foreign ⟨n, hn, r, (Heap.within_atom_datum_iff (by simp)).mp hr, hroot⟩

/-- Of two elements of a list one comes before the other. -/
private theorem sublist_or_sublist {α : Type} {l : List α} {a b : α} (ha : a ∈ l) (hb : b ∈ l)
    (hne : a ≠ b) : [a, b].Sublist l ∨ [b, a].Sublist l := by
  induction l with
  | nil => cases ha
  | cons c l ih =>
    rcases List.mem_cons.mp ha with rfl | ha'
    · have hb' := (List.mem_cons.mp hb).resolve_left hne.symm
      exact .inl (.cons_cons _ (List.singleton_sublist.mpr hb'))
    · rcases List.mem_cons.mp hb with rfl | hb'
      · exact .inr (.cons_cons _ (List.singleton_sublist.mpr ha'))
      · exact (ih ha' hb').imp (.cons _) (.cons _)

theorem SameSlot.symm (h : w.SameSlot m n) : w.SameSlot n m := by
  obtain ⟨hid, hkinds⟩ := h
  refine ⟨hid.symm, hkinds.imp And.symm fun ⟨htype, hkinds⟩ => ⟨htype.symm, ?_⟩⟩
  exact hkinds.imp And.symm And.symm

/-- What a body has everywhere, and nothing, an alias has everywhere. -/
private theorem everywhere_aliasOf {Q : Datum → Prop} (hnull : Q .null)
    (h : (w.bodyOf (w.propertiesOf n)).Everywhere Q) : (w.aliasOf n).Everywhere Q := by
  rw [aliasOf]
  cases hfield : (w.bodyOf (w.propertiesOf n)).field? "alias" with
  | none =>
    intro x hx
    rw [Datum.within_atom.mp hx]
    exact hnull
  | some d => exact h.part (Datum.within_of_field? hfield)

/-- An alias is open like the body that it stands in. -/
private theorem thaw_aliasOf (n : NodeId) : (w.aliasOf n).withFixed false = w.aliasOf n := by
  have hbody : w.aliasOf n =
      w.bodyOf (((w.propertiesOf n).field? "alias").getD .null) := by
    rw [aliasOf, w.relabels_bodyOf.field?_eq]
    cases (w.propertiesOf n).field? "alias" <;> rfl
  rw [hbody, bodyOf, Datum.thaw, Datum.withFixed_withFixed]

/-- Aliases of what becomes bodies are the same exactly if they are alike. -/
private theorem Reached.same_aliasOf_iff (hw : Reached w)
    (hn : Resolvable w s (w.propertiesOf n)) :
    (w.aliasOf n).same (w.aliasOf m) = true ↔
      Datum.Like Datum.SameScalars (w.aliasOf n) (w.aliasOf m) := by
  have hplain : (w.aliasOf n).Everywhere Datum.Plain :=
    everywhere_aliasOf trivial (everywhere_plain_bodyOf hn)
  have hkeyed : (w.aliasOf n).Keyed := by
    have hbody := w.relabels_bodyOf.allKeys_iff.mpr (hw.keyed_propertiesOf n)
    exact everywhere_aliasOf .nil hbody
  constructor
  · refine Datum.like_of_same (fun a ha => ?_) hkeyed
    have ha := hplain _ ha
    cases a with
    | scalar s => exact ⟨s, rfl⟩
    | _ => cases ha
  · intro hlike
    rw [← thaw_aliasOf, ← thaw_aliasOf m]
    exact Datum.same_of_like hlike hkeyed (fun c hc => hplain _ hc) false

namespace Correspond

variable (h : Correspond w w' s s') (hw : Reached w) (hw' : Reached w')
  (hs : (w.node s).isStack = true) (hs' : (w'.node s').isStack = true)

section Blocks

include hw hs

/-- Counterparts have one logical id. -/
theorem logicalId_eq (hw' : Reached w') (hs' : (w'.node s').isStack = true)
    (hn : n ∈ w.blockNodes s) (hn' : n' ∈ w'.blockNodes s')
    (hc : Counterparts w w' s s' n n') : w.logicalId n = w'.logicalId n' :=
  hw.logicalId_eq_of_path_eq hw'
    (hw.lt_size_of_root_eq hs ((hw.mem_blockNodes_iff hs).mp hn).1)
    (hw'.lt_size_of_root_eq hs' ((hw'.mem_blockNodes_iff hs').mp hn').1) hc.path_eq

/-- No two blocks of a stack have one counterpart. -/
theorem eq_of_counterparts (hm : m ∈ w.blockNodes s) (hn : n ∈ w.blockNodes s)
    (hcm : Counterparts w w' s s' m n') (hcn : Counterparts w w' s s' n n') : m = n := by
  obtain ⟨hmroot, -⟩ := (hw.mem_blockNodes_iff hs).mp hm
  obtain ⟨hnroot, -⟩ := (hw.mem_blockNodes_iff hs).mp hn
  exact hw.eq_of_path_eq (hw.lt_size_of_root_eq hs hmroot) (hw.lt_size_of_root_eq hs hnroot)
    (hmroot.trans hnroot.symm) (hcm.path_eq.trans hcn.path_eq.symm)

end Blocks

section Defects

include h hw'

/-- If the blocks of a stack become bodies, so do those of the other. -/
theorem resolvable (hno : ∀ d, ¬ w.Has s d) (hn' : n' ∈ w'.blockNodes s') :
    Resolvable w' s' (w'.propertiesOf n') := by
  obtain ⟨n, hn, hc⟩ := h.back n' hn'
  have hr := resolvable_of_not_has hno hn
  have hkeyed := hw'.keyed_propertiesOf n'
  refine ⟨hc.properties_like.loopFree hkeyed hr.loopFree, fun hb => ?_, fun hb => ?_⟩
  · obtain ⟨a, ha, hab⟩ := hc.properties_like.exists_atom hkeyed hb
    exact hab.supported (hr.supported ha)
  · obtain ⟨a, ha, hab⟩ := hc.properties_like.exists_atom hkeyed hb
    cases hab with
    | inside _ hr' => exact hr'
    | outside hne => exact absurd (hr.root_eq ha) hne
    | unsupported _ hnb => exact absurd trivial hnb

include hw hs hs'

omit hw hs in
/-- A pair of blocks with a claim on one another has counterparts with such a claim. -/
private theorem exists_claim {Claim : NodeId → NodeId → Prop} {Claim' : NodeId → NodeId → Prop}
    (hsymm : ∀ m n, m ∈ w.blockNodes s → n ∈ w.blockNodes s → Claim m n → Claim n m)
    (hclaim : ∀ m n m' n', m ∈ w.blockNodes s → n ∈ w.blockNodes s → m' ∈ w'.blockNodes s' →
      n' ∈ w'.blockNodes s' → Counterparts w w' s s' m m' → Counterparts w w' s s' n n' →
      Claim' m' n' → Claim m n)
    (hpair : ∃ m' n', [m', n'].Sublist (w'.blockNodes s') ∧ Claim' n' m') :
    ∃ m n, [m, n].Sublist (w.blockNodes s) ∧ Claim n m := by
  obtain ⟨m', n', hsub, hc⟩ := hpair
  have hm' : m' ∈ w'.blockNodes s' := hsub.subset (by simp)
  have hn' : n' ∈ w'.blockNodes s' := hsub.subset (by simp)
  have hne' : m' ≠ n' := by
    have hnodup := hsub.nodup (hw'.forest.nodup_blockNodes s')
    simpa using hnodup
  obtain ⟨m, hm, hcm⟩ := h.back m' hm'
  obtain ⟨n, hn, hcn⟩ := h.back n' hn'
  have hne : m ≠ n := by
    rintro rfl
    exact hne' (eq_of_counterparts hw' hs' hm' hn' hcm.symm hcn.symm)
  have hnm := hclaim n m n' m' hn hm hn' hm' hcn hcm hc
  rcases sublist_or_sublist hm hn hne with hsub | hsub
  · exact ⟨m, n, hsub, hnm⟩
  · exact ⟨n, m, hsub, hsymm n m hn hm hnm⟩

omit h in
/-- A block points at the counterpart of what its own counterpart points at. -/
private theorem pointsAt (hp : w'.PointsAt s' m' n') (hn' : n' ∈ w'.blockNodes s')
    (hm : m ∈ w.blockNodes s) (hcm : Counterparts w w' s s' m m') (hn : n ∈ w.blockNodes s)
    (hcn : Counterparts w w' s s' n n') : w.PointsAt s m n := by
  obtain ⟨-, attr, hreach⟩ := hp
  obtain ⟨hnroot, -⟩ := (hw.mem_blockNodes_iff hs).mp hn
  have hwithin : Datum.Within (.atom (.reference ⟨n', attr⟩)) (w'.propertiesOf m') :=
    (Heap.within_atom_datum_iff (by simp)).mpr hreach
  obtain ⟨a, ha, hab⟩ :=
    hcm.properties_like.exists_atom (hw'.keyed_propertiesOf m') hwithin
  cases hab with
  | @inside r _ hr _ hpath _ =>
    have htarget : r.target = n := hw.eq_of_path_eq (hw.lt_size_of_root_eq hs hr)
      (hw.lt_size_of_root_eq hs hnroot) (hr.trans hnroot.symm) (hpath.trans hcn.path_eq.symm)
    subst htarget
    exact ⟨hm, r.attr, (Heap.within_atom_datum_iff (by simp)).mp ha⟩
  | outside _ hne => exact absurd ((hw'.mem_blockNodes_iff hs').mp hn').1 hne
  | unsupported _ hnb => exact absurd trivial hnb

private theorem chain (hp : Relation.TransGen (w'.PointsAt s') m' n')
    (hn' : n' ∈ w'.blockNodes s') (hm : m ∈ w.blockNodes s)
    (hcm : Counterparts w w' s s' m m') (hn : n ∈ w.blockNodes s)
    (hcn : Counterparts w w' s s' n n') : Relation.TransGen (w.PointsAt s) m n := by
  induction hp generalizing n with
  | single hp => exact .single (pointsAt hw hw' hs hs' hp hn' hm hcm hn hcn)
  | tail _ hstep ih =>
    obtain ⟨k, hk, hck⟩ := h.back _ hstep.1
    exact (ih hstep.1 hk hck).tail (pointsAt hw hw' hs hs' hstep hn' hk hck hn hcn)

/-- If a stack has no defect, neither has the other. -/
theorem not_has (hno : ∀ d, ¬ w.Has s d) (d : Defect) : ¬ w'.Has s' d := by
  obtain ⟨hself, hunsupported, hforeign⟩ :=
    not_has_of_resolvable fun n' hn' => h.resolvable hw' hno hn'
  cases d with
  | selfContaining => exact hself
  | unsupported => exact hunsupported
  | foreign => exact hforeign
  | sharedSlot =>
    refine fun hhas => hno .sharedSlot (h.exists_claim hw' hs'
      (fun _ _ _ _ => SameSlot.symm) ?_ hhas)
    rintro m n m' n' hm hn hm' hn' hcm hcn ⟨hid, hkinds⟩
    refine ⟨?_, ?_⟩
    · rw [logicalId_eq hw hs hw' hs' hm hm' hcm, logicalId_eq hw hs hw' hs' hn hn' hcn, hid]
    · rwa [hcm.kind_eq, hcn.kind_eq, hcm.typeTag_eq, hcn.typeTag_eq]
  | sharedAlias =>
    refine fun hhas => hno .sharedAlias (h.exists_claim hw' hs' ?_ ?_ hhas)
    · rintro m n hm hn ⟨hmk, hnk, htype, hsame⟩
      refine ⟨hnk, hmk, htype.symm, ?_⟩
      have hlike := (hw.same_aliasOf_iff (resolvable_of_not_has hno hm)).mp hsame
      exact (hw.same_aliasOf_iff (resolvable_of_not_has hno hn)).mpr
        hlike.symm_same
    · rintro m n m' n' hm hn hm' hn' hcm hcn ⟨hmk, hnk, htype, hsame⟩
      refine ⟨hcm.kind_eq.trans hmk, hcn.kind_eq.trans hnk,
        (hcm.typeTag_eq.trans htype).trans hcn.typeTag_eq.symm, ?_⟩
      have hrm := resolvable_of_not_has hno hm
      have hlike' := (hw'.same_aliasOf_iff (h.resolvable hw' hno hm')).mp hsame
      have hlikem := h.like_aliasOf hw hw' hs hs' hrm hcm
      have hliken := h.like_aliasOf hw hw' hs hs' (resolvable_of_not_has hno hn) hcn
      exact (hw.same_aliasOf_iff hrm).mpr
        ((hlikem.trans_same hlike').trans_same hliken.symm_same)
  | cycle =>
    rintro ⟨n', hcycle⟩
    have hn' : n' ∈ w'.blockNodes s' := by
      cases Relation.TransGen.head'_iff.mp hcycle with
      | intro k' hk => exact hk.1.1
    obtain ⟨n, hn, hcn⟩ := h.back n' hn'
    exact hno .cycle ⟨n, h.chain hw hw' hs hs' hcycle hn' hn hcn hn hcn⟩

end Defects

end Correspond

end Workspace

end Groundplan
