import Groundplan.Proofs.Synthesis.Correspondence

/-!
# The order of declarations

The order in which siblings were declared and properties were set does not matter: of two stacks
that correspond, one becomes a document exactly if the other does, and the documents are the same
but for the order of entries and of the configurations of a provider.
-/

namespace Groundplan

/-- Two lists of the same configurations, in whatever order. -/
def Datum.Permuted (d d' : Datum) : Prop :=
  ∃ items items' matched, d = .sequence true items ∧ d' = .sequence true items' ∧
    List.Perm matched items' ∧ List.Forall₂ (fun a b => a.same b = true) items matched

/-- Documents that are the same but for the order of entries and of provider configurations. -/
structure Document.Rearranged (doc doc' : Document) : Prop where
  /-- Both are of one stack name. -/
  stackName_eq : doc.stackName = doc'.stackName
  /-- Both state the same about themselves. -/
  metadata_eq : doc.metadata = doc'.metadata
  /-- Resources, data sources and outputs are there in both or in none, and equal as mappings. -/
  sections_same : ∀ kind, kind ≠ .provider →
    Option.Rel (fun d d' => d.same d' = true) (doc.section? kind) (doc'.section? kind)
  /-- Under each key both have the same configurations of a provider, or both have none. -/
  configurations_permuted : ∀ k, Option.Rel Datum.Permuted ((doc.entriesOf .provider).get? k)
    ((doc'.entriesOf .provider).get? k)

/-- Elements that correspond one to one can be listed in one order. -/
private theorem exists_perm_forall₂ {α β : Type} {R : α → β → Prop} {as : List α} {bs : List β}
    (has : as.Nodup) (hbs : bs.Nodup) (hforth : ∀ a ∈ as, ∃ b ∈ bs, R a b)
    (hback : ∀ b ∈ bs, ∃ a ∈ as, R a b)
    (hleft : ∀ a ∈ as, ∀ a' ∈ as, ∀ b, R a b → R a' b → a = a')
    (hright : ∀ a, ∀ b ∈ bs, ∀ b' ∈ bs, R a b → R a b' → b = b') :
    ∃ matched, List.Perm matched bs ∧ List.Forall₂ R as matched := by
  induction as generalizing bs with
  | nil =>
    cases bs with
    | nil => exact ⟨[], .nil, .nil⟩
    | cons b bs =>
      obtain ⟨a, ha, -⟩ := hback b List.mem_cons_self
      cases ha
  | cons a as ih =>
    obtain ⟨hfresh, has⟩ := List.nodup_cons.mp has
    obtain ⟨⟨b, hb, hab⟩, hforth⟩ := List.forall_mem_cons.mp hforth
    obtain ⟨before, after, rfl⟩ := List.append_of_mem hb
    have hmoved : (before ++ b :: after).Perm (b :: (before ++ after)) := List.perm_middle
    obtain ⟨hb, hrest⟩ := List.nodup_cons.mp (hmoved.nodup_iff.mp hbs)
    have hsub {b' : β} (hb' : b' ∈ before ++ after) : b' ∈ before ++ b :: after :=
      hmoved.mem_iff.mpr (List.mem_cons_of_mem _ hb')
    have hforth' : ∀ a' ∈ as, ∃ b' ∈ before ++ after, R a' b' := by
      intro a' ha'
      obtain ⟨b', hb', hab'⟩ := hforth a' ha'
      rcases List.mem_cons.mp (hmoved.mem_iff.mp hb') with rfl | hb'
      · have he := hleft a List.mem_cons_self a' (List.mem_cons_of_mem _ ha') b' hab hab'
        exact absurd (he ▸ ha') hfresh
      · exact ⟨b', hb', hab'⟩
    have hback' : ∀ b' ∈ before ++ after, ∃ a' ∈ as, R a' b' := by
      intro b' hb'
      obtain ⟨a', ha', hab'⟩ := hback b' (hsub hb')
      rcases List.mem_cons.mp ha' with rfl | ha'
      · have he := hright a' b (by simp) b' (hsub hb') hab hab'
        exact absurd (he ▸ hb') hb
      · exact ⟨a', ha', hab'⟩
    obtain ⟨matched, hperm, hmatched⟩ := ih has hrest hforth' hback'
      (fun x hx y hy => hleft x (List.mem_cons_of_mem _ hx) y (List.mem_cons_of_mem _ hy))
      (fun x b' hb' c' hc' => hright x b' (hsub hb') c' (hsub hc'))
    exact ⟨b :: matched, (hperm.cons b).trans hmoved.symm, .cons hab hmatched⟩

namespace Workspace

variable {w w' : Workspace} {s s' n n' : NodeId}

namespace Correspond

variable (h : Correspond w w' s s') (hw : Reached w) (hw' : Reached w')
  (hs : (w.node s).isStack = true) (hs' : (w'.node s').isStack = true)

include h hw hw' hs hs'

/-- The bodies of counterparts are the same. -/
private theorem same_fixedBody (hn : Resolvable w s (w.propertiesOf n))
    (hc : Counterparts w w' s s' n n') : (w.fixedBody n).same (w'.fixedBody n') = true := by
  have hlike := h.like_bodyOf hw hw' hs hs' hn hc.properties_like
  have hkeyed := w.relabels_bodyOf.allKeys_iff.mpr (hw.keyed_propertiesOf n)
  rw [fixedBody, fixedBody, ← freeze_bodyOf, ← freeze_bodyOf]
  exact Datum.same_of_like hlike hkeyed (fun c hc => everywhere_plain_bodyOf hn _ hc) true

omit h in
/-- Some blocks of one stack are the counterparts of some of the other, in whatever order. -/
private theorem exists_matched {ns ns' : List NodeId} (hns : ns.Sublist (w.blockNodes s))
    (hns' : ns'.Sublist (w'.blockNodes s'))
    (hforth : ∀ n ∈ ns, ∃ n' ∈ ns', Counterparts w w' s s' n n')
    (hback : ∀ n' ∈ ns', ∃ n ∈ ns, Counterparts w w' s s' n n') :
    ∃ matched, List.Perm matched ns' ∧
      List.Forall₂ (fun n n' => n ∈ ns ∧ Counterparts w w' s s' n n') ns matched := by
  refine exists_perm_forall₂ (hns.nodup (hw.forest.nodup_blockNodes s))
    (hns'.nodup (hw'.forest.nodup_blockNodes s')) (fun n hn => ?_) (fun n' hn' => ?_) ?_ ?_
  · exact (hforth n hn).imp fun n' hn' => ⟨hn'.1, hn, hn'.2⟩
  · exact (hback n' hn').imp fun n hn => ⟨hn.1, hn⟩
  · intro m hm n hn n' hcm hcn
    exact eq_of_counterparts hw hs (hns.subset hm) (hns.subset hn) hcm.2 hcn.2
  · intro n m' hm' n' hn' hcm hcn
    exact eq_of_counterparts hw' hs' (hns'.subset hm') (hns'.subset hn') hcm.2.symm hcn.2.symm

section Sections

omit hw hw' hs hs' in
private theorem forth_nodesOf (kind : BlockKind) :
    ∀ n ∈ w.nodesOf s kind, ∃ n' ∈ w'.nodesOf s' kind, Counterparts w w' s s' n n' := by
  intro n hn
  simp only [nodesOf, List.mem_filter, decide_eq_true_eq] at hn ⊢
  obtain ⟨n', hn', hc⟩ := h.forth n hn.1
  exact ⟨n', ⟨hn', hc.kind_eq ▸ hn.2⟩, hc⟩

omit hw hw' hs hs' in
private theorem forth_nodesOfType (kind : BlockKind) (type : Option String) :
    ∀ n ∈ w.nodesOfType s kind type, ∃ n' ∈ w'.nodesOfType s' kind type,
      Counterparts w w' s s' n n' := by
  intro n hn
  simp only [nodesOfType, List.mem_filter, decide_eq_true_eq] at hn ⊢
  obtain ⟨n', hn', hc⟩ := h.forth_nodesOf kind n hn.1
  exact ⟨n', ⟨hn', hc.typeTag_eq ▸ hn.2⟩, hc⟩

omit hw hw' hs hs' in
/-- Stacks that correspond have blocks of the same kinds. -/
private theorem nodesOf_eq_nil_iff (kind : BlockKind) :
    w.nodesOf s kind = [] ↔ w'.nodesOf s' kind = [] := by
  have hempty {w w' : Workspace} {s s' : NodeId} (h : Correspond w w' s s')
      (hnil : w'.nodesOf s' kind = []) : w.nodesOf s kind = [] := by
    apply List.eq_nil_iff_forall_not_mem.mpr
    intro n hn
    obtain ⟨n', hn', -⟩ := h.forth_nodesOf kind n hn
    rw [hnil] at hn'
    cases hn'
  exact ⟨hempty h.symm, hempty h⟩

omit hw hw' hs hs' in
/-- Stacks that correspond have blocks of the same types. -/
private theorem types_perm {kind : BlockKind} {types types' : List (Option String)}
    (htypes : FirstOccurrences types ((w.nodesOf s kind).map fun n => (w.node n).typeTag))
    (htypes' : FirstOccurrences types' ((w'.nodesOf s' kind).map fun n => (w'.node n).typeTag)) :
    types.Perm types' := by
  have hmem {w w' : Workspace} {s s' : NodeId} (h : Correspond w w' s s') {t : Option String}
      (ht : t ∈ (w.nodesOf s kind).map fun n => (w.node n).typeTag) :
      t ∈ (w'.nodesOf s' kind).map fun n => (w'.node n).typeTag := by
    obtain ⟨n, hn, rfl⟩ := List.mem_map.mp ht
    obtain ⟨n', hn', hc⟩ := h.forth_nodesOf kind n hn
    exact List.mem_map.mpr ⟨n', hn', hc.typeTag_eq.symm⟩
  refine (List.perm_ext_iff_of_nodup htypes.nodup htypes'.nodup).mpr fun t => ?_
  rw [htypes.mem_iff, htypes'.mem_iff]
  exact ⟨hmem h, hmem h.symm⟩

variable (hno : ∀ d, ¬ w.Has s d)
include hno

/-- Bodies under the ids of counterparts are equal as mappings. -/
private theorem same_byId {ns ns' : List NodeId} (hns : ns.Sublist (w.blockNodes s))
    (hns' : ns'.Sublist (w'.blockNodes s'))
    (hforth : ∀ n ∈ ns, ∃ n' ∈ ns', Counterparts w w' s s' n n')
    (hback : ∀ n' ∈ ns', ∃ n ∈ ns, Counterparts w' w s' s n' n)
    (hnodup : (ns'.map w'.logicalId).Nodup) :
    (Datum.mapping true (w.byId ns)).same (.mapping true (w'.byId ns')) = true := by
  obtain ⟨matched, hperm, hmatched⟩ := exists_matched hw hw' hs hs' hns hns' hforth
    fun n' hn' => (hback n' hn').imp fun n hn => ⟨hn.1, hn.2.symm⟩
  refine Datum.same_mapping_iff.mpr ⟨?_, fun e he => ?_⟩
  · simp only [byId, List.length_map]
    rw [hmatched.length_eq, hperm.length_eq]
  · obtain ⟨n, hn, rfl⟩ := List.mem_map.mp he
    obtain ⟨n', hn', hc⟩ := hforth n hn
    have hid := logicalId_eq hw hs hw' hs' (hns.subset hn) (hns'.subset hn') hc
    refine ⟨w'.fixedBody n', ?_, ?_⟩
    · rw [hid]
      exact get?_byId hnodup hn'
    · exact h.same_fixedBody hw hw' hs hs' (resolvable_of_not_has hno (hns.subset hn)) hc

private theorem same_byId_ofType {kind : BlockKind} {type : Option String}
    (hnodup : ((w'.nodesOfType s' kind type).map w'.logicalId).Nodup) :
    (Datum.mapping true (w.byId (w.nodesOfType s kind type))).same
      (.mapping true (w'.byId (w'.nodesOfType s' kind type))) = true :=
  h.same_byId hw hw' hs hs' hno (List.filter_sublist.trans List.filter_sublist)
    (List.filter_sublist.trans List.filter_sublist) (h.forth_nodesOfType kind type)
    (h.symm.forth_nodesOfType kind type) hnodup

/-- The sections of resources, data sources and outputs are equal as mappings. -/
private theorem same_sectionWith {doc' : Document} (hrecords : w'.Records s' doc')
    {kind : BlockKind} (hkind : kind ≠ .provider) {types types' : List (Option String)}
    (hperm : types.Perm types') :
    (w.sectionWith s types kind).same (w'.sectionWith s' types' kind) = true := by
  have htyped (hkind : kind = .resource ∨ kind = .data) :
      (Datum.mapping true (types.map fun t =>
        (Key.ofText? t, .mapping true (w.byId (w.nodesOfType s kind t))))).same
      (.mapping true (types'.map fun t =>
        (Key.ofText? t, .mapping true (w'.byId (w'.nodesOfType s' kind t))))) = true := by
    refine Datum.same_mapping_iff.mpr ⟨by simpa using hperm.length_eq, fun e he => ?_⟩
    obtain ⟨t, ht, rfl⟩ := List.mem_map.mp he
    refine ⟨_, (Entries.get?_map_ofText? types' _ t).trans (if_pos (hperm.mem_iff.mp ht)), ?_⟩
    exact h.same_byId_ofType hw hw' hs hs' hno (hrecords.ids_nodup kind t hkind)
  cases kind with
  | provider => exact absurd rfl hkind
  | output =>
    exact h.same_byId hw hw' hs hs' hno List.filter_sublist List.filter_sublist
      (h.forth_nodesOf .output) (h.symm.forth_nodesOf .output) hrecords.outputs_nodup
  | resource => exact htyped (.inl rfl)
  | data => exact htyped (.inr rfl)

/-- The configurations of one type are permuted. -/
private theorem permuted_configurations (type : Option String) :
    Datum.Permuted (.sequence true ((w.nodesOfType s .provider type).map w.fixedBody))
      (.sequence true ((w'.nodesOfType s' .provider type).map w'.fixedBody)) := by
  have hsub : (w.nodesOfType s .provider type).Sublist (w.blockNodes s) :=
    List.filter_sublist.trans List.filter_sublist
  obtain ⟨matched, hperm, hmatched⟩ := exists_matched hw hw' hs hs' hsub
    (List.filter_sublist.trans List.filter_sublist) (h.forth_nodesOfType .provider type)
    fun n' hn' => (h.symm.forth_nodesOfType .provider type n' hn').imp fun n hn =>
      ⟨hn.1, hn.2.symm⟩
  refine ⟨_, _, matched.map w'.fixedBody, rfl, rfl, hperm.map _, ?_⟩
  rw [List.forall₂_map_left_iff, List.forall₂_map_right_iff]
  exact hmatched.imp fun n n' ⟨hn, hc⟩ =>
    h.same_fixedBody hw hw' hs hs' (resolvable_of_not_has hno (hsub.subset hn)) hc

private theorem permuted_providers {types types' : List (Option String)}
    (hperm : types.Perm types') (k : Key) :
    Option.Rel Datum.Permuted ((w.sectionWith s types .provider).entries.get? k)
      ((w'.sectionWith s' types' .provider).entries.get? k) := by
  show Option.Rel Datum.Permuted
    (Entries.get? (types.map fun t => (Key.ofText? t,
      Datum.sequence true ((w.nodesOfType s .provider t).map w.fixedBody))) k)
    (Entries.get? (types'.map fun t => (Key.ofText? t,
      Datum.sequence true ((w'.nodesOfType s' .provider t).map w'.fixedBody))) k)
  by_cases hk : ∃ t ∈ types, k.same (Key.ofText? t) = true
  · obtain ⟨t, ht, hk⟩ := hk
    rw [Entries.get?_congr hk, Entries.get?_congr hk, Entries.get?_map_ofText?,
      Entries.get?_map_ofText?, if_pos ht, if_pos (hperm.mem_iff.mp ht)]
    exact .some (h.permuted_configurations hw hw' hs hs' hno t)
  · have hnone : ∀ t ∈ types, k.same (Key.ofText? t) = false := by simpa using hk
    rw [Entries.get?_map_eq_none hnone,
      Entries.get?_map_eq_none fun t ht => hnone t (hperm.mem_iff.mpr ht)]
    exact .none

/-- What records two stacks that correspond is the same but for the order. -/
theorem rearranged {doc doc' : Document} (hrecords : w.Records s doc)
    (hrecords' : w'.Records s' doc') (hname : doc.stackName = doc'.stackName)
    (hmetadata : doc.metadata = doc'.metadata) : doc.Rearranged doc' := by
  obtain ⟨types, htypes, hblocks⟩ := hrecords.blocks_eq
  obtain ⟨types', htypes', hblocks'⟩ := hrecords'.blocks_eq
  have hperm (kind : BlockKind) : (types kind).Perm (types' kind) :=
    h.types_perm (htypes kind) (htypes' kind)
  refine ⟨hname, hmetadata, fun kind hkind => ?_, fun k => ?_⟩
  · rw [section?_eq htypes hblocks, section?_eq htypes' hblocks']
    simp only [h.nodesOf_eq_nil_iff kind]
    split
    · exact .none
    · exact .some (h.same_sectionWith hw hw' hs hs' hno hrecords' hkind (hperm kind))
  · rw [entriesOf_eq htypes hblocks, entriesOf_eq htypes' hblocks']
    exact h.permuted_providers hw hw' hs hs' hno (hperm .provider) k

end Sections

end Correspond

/-- A stack without defects becomes a document. -/
private theorem exists_document (hw : Reached w) (hno : ∀ d, ¬ w.Has s d) (emit : Bool) :
    ∃ doc, (w.synthesize (.atom (.entity (.node s true))) emit).2 = .ok doc := by
  cases hd : (w.synthesize (.atom (.entity (.node s true))) emit).2 with
  | ok doc => exact ⟨doc, rfl⟩
  | error e =>
    obtain ⟨-, d, -, -, hhas⟩ := exists_defect_of_synthesize_eq_error hw hd
    exact absurd hhas (hno d)

/-- Of two stacks of one name whose blocks correspond by path, in whatever order they and their
properties were declared, one becomes a document exactly if the other does, and the documents are the
same but for the order. -/
theorem synthesize_reordered (hw : Reached w) (hw' : Reached w') (hs : (w.node s).isStack = true)
    (hs' : (w'.node s').isStack = true) (h : Correspond w w' s s') (emit : Bool) :
    ((∃ doc, (w.synthesize (.atom (.entity (.node s true))) emit).2 = .ok doc) ↔
        ∃ doc', (w'.synthesize (.atom (.entity (.node s' true))) emit).2 = .ok doc') ∧
      ∀ doc doc', (w.synthesize (.atom (.entity (.node s true))) emit).2 = .ok doc →
        (w'.synthesize (.atom (.entity (.node s' true))) emit).2 = .ok doc' →
          doc.Rearranged doc' := by
  refine ⟨⟨?_, ?_⟩, fun doc doc' hdoc hdoc' => ?_⟩
  · rintro ⟨doc, hdoc⟩
    exact exists_document hw' (h.not_has hw hw' hs hs' (not_has_of_synthesize_eq_ok hdoc)) emit
  · rintro ⟨doc', hdoc'⟩
    exact exists_document hw (h.symm.not_has hw' hw hs' hs (not_has_of_synthesize_eq_ok hdoc')) emit
  · have hno := not_has_of_synthesize_eq_ok hdoc
    obtain ⟨placed, hsettled, rfl⟩ := synthesize_eq_ok hdoc
    obtain ⟨placed', hsettled', rfl⟩ := synthesize_eq_ok hdoc'
    refine h.rearranged hw hw' hs hs' hno (records_of_settled hsettled rfl)
      (records_of_settled hsettled' rfl) h.name_eq ?_
    simp only [Document.of, h.name_eq]

/-- Requests that declare a network and then a subnet with a reference to it. -/
def subnetLast : List Call :=
  [.createApp "", .createStack 0 (.text "stack"),
    .keep (.mapping [(.text "cidr", .text "10.0.0.0/16"), (.text "name", .text "main")]),
    .addBlock 0 .resource (.text "vpc") (.text "main") (.cell 1),
    .keep (.mapping [(.text "vpc", .atom (.reference ⟨1, "id"⟩))]),
    .addBlock 0 .resource (.text "subnet") (.text "a") (.cell 3)]

/-- Requests that declare the subnet first, and the properties of the network the other way round. -/
def subnetFirst : List Call :=
  [.createApp "", .createStack 0 (.text "stack"),
    .addBlock 0 .resource (.text "subnet") (.text "a") .null,
    .keep (.mapping [(.text "name", .text "main"), (.text "cidr", .text "10.0.0.0/16")]),
    .addBlock 0 .resource (.text "vpc") (.text "main") (.cell 2),
    .setProperty 1 (.text "vpc") (.atom (.reference ⟨2, "id"⟩))]

/-- The texts and references among entries that are nothing else, each with its name. -/
private def leavesOf? : Entries Datum → Option (List (String × (String ⊕ Reference)))
  | [] => some []
  | (.scalar (.text name), .atom (.scalar (.text s))) :: es =>
      (leavesOf? es).map ((name, .inl s) :: ·)
  | (.scalar (.text name), .atom (.reference r)) :: es => (leavesOf? es).map ((name, .inr r) :: ·)
  | _ => none

/-- The texts and references of an open mapping of such. -/
private def leaves? : Datum → Option (List (String × (String ⊕ Reference)))
  | .mapping false es => leavesOf? es
  | _ => none

private theorem eq_of_leavesOf? {es : Entries Datum} {ls : List (String × (String ⊕ Reference))}
    (h : leavesOf? es = some ls) :
    es = ls.map fun l => (.text l.1, l.2.elim .text (.atom ∘ .reference)) := by
  fun_induction leavesOf? es generalizing ls with
  | case1 =>
    cases h
    rfl
  | case2 name s es ih =>
    obtain ⟨ls, hls, rfl⟩ := Option.map_eq_some_iff.mp h
    rw [ih hls]
    rfl
  | case3 name r es ih =>
    obtain ⟨ls, hls, rfl⟩ := Option.map_eq_some_iff.mp h
    rw [ih hls]
    rfl
  | case4 => cases h

private theorem eq_of_leaves? {d : Datum} {ls : List (String × (String ⊕ Reference))}
    (h : leaves? d = some ls) :
    d = .mapping false (ls.map fun l => (.text l.1, l.2.elim .text (.atom ∘ .reference))) := by
  unfold leaves? at h
  split at h
  · rw [← eq_of_leavesOf? h]
  · cases h

private theorem counterparts_vpc (hw : Reached (run {} subnetLast)) :
    Counterparts (run {} subnetLast) (run {} subnetFirst) 0 0 1 2 := by
  refine ⟨by decide +kernel, by decide +kernel, by decide +kernel, ?_⟩
  have hsame : ((run {} subnetLast).propertiesOf 1).same ((run {} subnetFirst).propertiesOf 2) =
      true := by decide +kernel
  have hleaves : leaves? ((run {} subnetLast).propertiesOf 1) =
      some [("cidr", .inl "10.0.0.0/16"), ("name", .inl "main")] := by decide +kernel
  have hscalar : ∀ a, Datum.Within (.atom a) ((run {} subnetLast).propertiesOf 1) →
      ∃ s, a = .scalar s := by
    rw [eq_of_leaves? hleaves]
    simp [Datum.within_mapping]
  refine (Datum.like_of_same hscalar (hw.keyed_propertiesOf 1) hsame).imp_within ?_
  rintro _ _ _ ⟨hab⟩
  exact .scalar hab

private theorem counterparts_subnet :
    Counterparts (run {} subnetLast) (run {} subnetFirst) 0 0 2 1 := by
  refine ⟨by decide +kernel, by decide +kernel, by decide +kernel, ?_⟩
  have hleaves : leaves? ((run {} subnetLast).propertiesOf 2) =
      some [("vpc", .inr ⟨1, "id"⟩)] := by decide +kernel
  have hleaves' : leaves? ((run {} subnetFirst).propertiesOf 1) =
      some [("vpc", .inr ⟨2, "id"⟩)] := by decide +kernel
  rw [eq_of_leaves? hleaves, eq_of_leaves? hleaves']
  refine .mapping rfl (fun k => rfl) fun k d d' hd hd' => ?_
  obtain ⟨_, he, _⟩ := Entries.exists_mem_of_get? hd
  obtain ⟨_, he', _⟩ := Entries.exists_mem_of_get? hd'
  cases List.mem_singleton.mp he
  cases List.mem_singleton.mp he'
  exact .atom (.inside (by decide +kernel) (by decide +kernel) (by decide +kernel) rfl)

/-- The network and the subnet become one document in either order. -/
theorem synthesize_reordered_subnet : ∃ doc doc',
    ((run {} subnetLast).synthesize (.atom (.entity (.node 0 true))) true).2 = .ok doc ∧
      ((run {} subnetFirst).synthesize (.atom (.entity (.node 0 true))) true).2 = .ok doc' ∧
      doc.Rearranged doc' := by
  have hw : Reached (run {} subnetLast) := Reached.start.run (by decide +kernel)
  have hw' : Reached (run {} subnetFirst) := Reached.start.run (by decide +kernel)
  have hblocks : (run {} subnetLast).blockNodes 0 = [1, 2] := by decide +kernel
  have hblocks' : (run {} subnetFirst).blockNodes 0 = [1, 2] := by decide +kernel
  have h : Correspond (run {} subnetLast) (run {} subnetFirst) 0 0 := by
    refine ⟨by decide +kernel, ?_, ?_⟩
    · rw [hblocks, hblocks']
      simp [counterparts_vpc hw, counterparts_subnet]
    · rw [hblocks, hblocks']
      simp [counterparts_vpc hw, counterparts_subnet]
  have hordered := synthesize_reordered hw hw' (by decide +kernel) (by decide +kernel) h true
  have hok : ((run {} subnetLast).synthesize (.atom (.entity (.node 0 true))) true).2.isOk =
      true := by decide +kernel
  cases hdoc : ((run {} subnetLast).synthesize (.atom (.entity (.node 0 true))) true).2 with
  | error e =>
    rw [hdoc] at hok
    cases hok
  | ok doc =>
    obtain ⟨doc', hdoc'⟩ := hordered.1.mp ⟨doc, hdoc⟩
    exact ⟨doc, doc', rfl, hdoc', hordered.2 doc doc' hdoc hdoc'⟩

end Workspace

end Groundplan
