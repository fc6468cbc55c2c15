import Groundplan.Proofs.Heap.Reading
import Groundplan.Proofs.Synthesis.Placement
import Groundplan.Proofs.Synthesis.References
import Groundplan.Proofs.Workspace.Acceptance
import Groundplan.Proofs.Workspace.Stored

/-!
# Defects

What keeps a stack from becoming a document, said of the containers, references and slots of its
blocks. Synthesis gives a document exactly if the stack has none of these defects and nothing in its
blocks is beyond the limits; otherwise it fails with a fault of synthesis that names a defect that is
there, or breaks down. Containers may be shared: only one that stands inside itself is a defect.
-/

namespace Groundplan

namespace Datum

private theorem mem_referencedItems {n : NodeId} {ds : List Datum} :
    n ∈ referencedItems ds ↔ ∃ d ∈ ds, n ∈ d.referenced := by
  induction ds with
  | nil => simp [referencedItems]
  | cons d ds ih => simp [referencedItems, ih]

private theorem mem_referencedEntries {n : NodeId} {es : List (Key × Datum)} :
    n ∈ referencedEntries es ↔ ∃ e ∈ es, n ∈ e.2.referenced := by
  induction es with
  | nil => simp [referencedEntries]
  | cons e es ih =>
    obtain ⟨k, d⟩ := e
    rw [referencedEntries, List.mem_append, ih]
    simp

/-- A node is pointed at if a reference to it stands in the datum. -/
theorem mem_referenced_iff {n : NodeId} {d : Datum} :
    n ∈ d.referenced ↔ ∃ r : Reference, r.target = n ∧ Within (.atom (.reference r)) d := by
  induction d using Datum.induction with
  | atom a => cases a <;> simp [referenced, eq_comm]
  | loop c => simp [referenced]
  | sequence fixed items ih =>
    rw [referenced, mem_referencedItems]
    constructor
    · rintro ⟨d, hd, hn⟩
      obtain ⟨r, hr, hw⟩ := (ih d hd).mp hn
      exact ⟨r, hr, .item hd hw⟩
    · rintro ⟨r, hr, hw⟩
      rcases within_sequence.mp hw with he | ⟨d, hd, hw⟩
      · cases he
      · exact ⟨d, hd, (ih d hd).mpr ⟨r, hr, hw⟩⟩
  | mapping fixed es ih =>
    rw [referenced, mem_referencedEntries]
    constructor
    · rintro ⟨e, he, hn⟩
      obtain ⟨r, hr, hw⟩ := (ih e he).mp hn
      exact ⟨r, hr, .entry he hw⟩
    · rintro ⟨r, hr, hw⟩
      rcases within_mapping.mp hw with he | ⟨e, he, hw⟩
      · cases he
      · exact ⟨e, he, (ih e he).mpr ⟨r, hr, hw⟩⟩

end Datum

/-- An atom other than nothing stands in what a value reads as exactly if the value reaches it. -/
theorem Heap.within_atom_datum_iff {h : Heap} {v : Value} {a : Atom} (ha : a ≠ .scalar .null) :
    Datum.Within (.atom a) (h.datum v) ↔ h.Reaches v (.atom a) := by
  constructor
  · intro hw
    rcases within_read hw with ⟨c, he⟩ | ⟨b, he, hb⟩ | ⟨id, f, he, -⟩
    · cases he
    · cases he
      exact hb
    · unfold layer at he
      split at he <;> cases he
      exact absurd rfl ha
  · intro hr
    exact shows_datum_of_reaches hr

/-- What keeps a stack from becoming a document. -/
inductive Defect where
  | selfContaining
  | unsupported
  | foreign
  | sharedSlot
  | sharedAlias
  | cycle
deriving DecidableEq

/-- The defect that a fault of synthesis names. -/
def SynthesisFault.defect? : SynthesisFault → Option Defect
  | .selfContaining _ => some .selfContaining
  | .notFinite _ | .unsupported _ _ => some .unsupported
  | .unresolved _ _ _ => some .foreign
  | .slotTaken _ _ => some .sharedSlot
  | .aliasTaken _ _ _ => some .sharedAlias
  | .cycle _ => some .cycle
  | .notStack _ | .unknownKind _ _ | .breakdown _ => none

namespace Workspace

/-- A block of the stack has a reference to the node in its properties. -/
def PointsAt (w : Workspace) (stack : NodeId) (m n : NodeId) : Prop :=
  m ∈ w.blockNodes stack ∧
    ∃ attr, w.heap.Reaches (w.node m).properties (.atom (.reference ⟨n, attr⟩))

/-- The blocks of a stack have a defect. -/
def Has (w : Workspace) (stack : NodeId) : Defect → Prop
  | .selfContaining => ∃ n ∈ w.blockNodes stack, ∃ c,
      w.heap.Reaches (w.node n).properties (.cell c) ∧ w.heap.SelfContaining c
  | .unsupported => ∃ n ∈ w.blockNodes stack, ∃ a,
      w.heap.Reaches (w.node n).properties (.atom a) ∧ ¬ a.Supported
  | .foreign => ∃ n ∈ w.blockNodes stack, ∃ r,
      w.heap.Reaches (w.node n).properties (.atom (.reference r)) ∧ w.root r.target ≠ stack
  | .sharedSlot => ∃ m n, [m, n].Sublist (w.blockNodes stack) ∧ w.SameSlot n m
  | .sharedAlias => ∃ m n, [m, n].Sublist (w.blockNodes stack) ∧ w.SameAlias n m
  | .cycle => ∃ n, Relation.TransGen (w.PointsAt stack) n n

/-- How the synthesis of a stack breaks down: at the properties of a block, or at an alias that two
providers share. -/
inductive Breaks (w : Workspace) (stack : NodeId) : Breakdown → Prop
  | properties {n : NodeId} {cause : Breakdown} (hn : n ∈ w.blockNodes stack)
      (h : w.heap.Breaks w.naming w.limits.resolving (w.node n).properties cause) : Breaks w stack cause
  | sharedAlias {m n : NodeId} {digits : Nat} (hmn : [m, n].Sublist (w.blockNodes stack))
      (h : w.SameAlias n m) (hdigits : w.naming.digits = some digits)
      (hlong : (w.aliasOf n).isLong w.naming = true) : Breaks w stack (.longNumeral digits)

variable {w w' : Workspace} {stack : NodeId}

/-- The defects of a stack do not depend on lifecycles. -/
theorem SameTrees.has_iff (h : SameTrees w w') (d : Defect) :
    w'.Has stack d ↔ w.Has stack d := by
  have hbody : w'.bodyOf = w.bodyOf := by
    funext d
    rw [bodyOf, bodyOf, h.token_eq]
  cases d with
  | cycle =>
    have hpoints : w'.PointsAt stack = w.PointsAt stack := by
      funext m n
      simp only [PointsAt, h.blockNodes_eq, h.heap_eq, h.properties_eq]
    simp only [Has, hpoints]
  | _ =>
    simp only [Has, SameSlot, SameAlias, aliasOf, hbody, h.blockNodes_eq, h.heap_eq,
      h.properties_eq, h.root_eq, h.logicalId_eq, h.kind_eq, h.typeTag_eq, h.propertiesOf_eq]

private theorem exists_defect_of_unfit {n : NodeId} (hn : n ∈ w.blockNodes stack)
    {f : SynthesisFault} (h : Unfit w stack (w.propertiesOf n) f) :
    ∃ d, f.defect? = some d ∧ w.Has stack d := by
  cases h with
  | loop path hc =>
    refine ⟨.selfContaining, rfl, n, hn, ?_⟩
    have hl : ¬ (w.heap.datum (w.node n).properties).LoopFree := fun hl => hl _ hc
    rw [Heap.loopFree_datum_iff] at hl
    simpa using hl
  | notFinite path hx hf =>
    refine ⟨.unsupported, rfl, n, hn, _, (Heap.within_atom_datum_iff (by simp)).mp hx, ?_⟩
    simp [Atom.Supported, hf]
  | @unsupported a path ha hs =>
    have hne : a ≠ .scalar .null := by
      rintro rfl
      exact hs trivial
    exact ⟨.unsupported, rfl, n, hn, _, (Heap.within_atom_datum_iff hne).mp ha, hs⟩
  | foreign path hr hroot =>
    exact ⟨.foreign, rfl, n, hn, _, (Heap.within_atom_datum_iff (by simp)).mp hr, hroot⟩

/-- Blocks that can all be resolved have no defect by themselves. -/
theorem not_has_of_resolvable
    (h : ∀ n ∈ w.blockNodes stack, Resolvable w stack (w.propertiesOf n)) :
    ¬ w.Has stack .selfContaining ∧ ¬ w.Has stack .unsupported ∧ ¬ w.Has stack .foreign := by
  refine ⟨?_, ?_, ?_⟩
  · rintro ⟨n, hn, c, hr, hs⟩
    exact Heap.loopFree_datum_iff.mp (h n hn).loopFree c hr hs
  · rintro ⟨n, hn, a, hr, hs⟩
    exact hs ((h n hn).supported (Heap.shows_datum_of_reaches hr))
  · rintro ⟨n, hn, r, hr, hroot⟩
    exact hroot ((h n hn).root_eq (Heap.shows_datum_of_reaches hr))

/-- The search for cycles goes along the references that blocks have. -/
theorem edge_referenceGraph_iff {m n : NodeId} :
    References.Edge (w.referenceGraph stack) m n ↔ w.PointsAt stack m n := by
  have htargets : References.targets (w.referenceGraph stack) m =
      if m ∈ w.blockNodes stack then (w.propertiesOf m).referenced else [] := by
    rw [References.targets, referenceGraph, List.find?_map]
    split
    · next hm =>
      have hf : (w.blockNodes stack).find? ((fun e : NodeId × List NodeId => decide (e.1 = m)) ∘
          fun n => (n, (w.propertiesOf n).referenced)) = some m := by
        cases hf : (w.blockNodes stack).find? ((fun e : NodeId × List NodeId =>
            decide (e.1 = m)) ∘ fun n => (n, (w.propertiesOf n).referenced)) with
        | none => simpa using List.find?_eq_none.mp hf m hm
        | some k => simpa using List.find?_some hf
      rw [hf]
      rfl
    · next hm =>
      have hf : (w.blockNodes stack).find? ((fun e : NodeId × List NodeId => decide (e.1 = m)) ∘
          fun n => (n, (w.propertiesOf n).referenced)) = none := by
        refine List.find?_eq_none.mpr fun k hk => ?_
        simp only [Function.comp_apply, decide_eq_true_eq]
        rintro rfl
        exact hm hk
      rw [hf]
      rfl
  rw [References.Edge, htargets, PointsAt]
  split
  · next hm =>
    rw [Datum.mem_referenced_iff]
    constructor
    · rintro ⟨⟨t, attr⟩, rfl, hr⟩
      exact ⟨hm, attr, (Heap.within_atom_datum_iff (by simp)).mp hr⟩
    · rintro ⟨-, attr, hr⟩
      exact ⟨⟨n, attr⟩, rfl, (Heap.within_atom_datum_iff (by simp)).mpr hr⟩
  · next hm => simp [hm]

/-- No cycle is reported exactly if the blocks of the stack have none. -/
theorem cycle?_referenceGraph_eq_none_iff :
    References.cycle? (w.referenceGraph stack) = none ↔ ¬ w.Has stack .cycle := by
  have hedge : References.Edge (w.referenceGraph stack) = w.PointsAt stack := by
    funext m n
    exact propext edge_referenceGraph_iff
  rw [References.cycle?_eq_none_iff, hedge, Has, not_exists]

/-- A stack that is a document has no defect, and nothing in its blocks is beyond the limits. -/
theorem not_has_of_documentOf_eq_ok {emit : Bool} {doc : Document}
    (h : w.documentOf stack emit = .ok doc) :
    (∀ d, ¬ w.Has stack d) ∧ ∀ n ∈ w.blockNodes stack, ∀ cause,
      ¬ w.heap.Breaks w.naming w.limits.resolving (w.node n).properties cause := by
  rw [documentOf_eq] at h
  obtain ⟨placed, hplaced, h⟩ := bind_eq_ok.mp h
  have hs := placeAll_eq_ok hplaced
  obtain ⟨hloop, hleaf, hforeign⟩ := not_has_of_resolvable hs.resolvable
  constructor
  · intro d
    cases d with
    | selfContaining => exact hloop
    | unsupported => exact hleaf
    | foreign => exact hforeign
    | sharedSlot =>
      rintro ⟨m, n, hmn, hslot⟩
      exact (hs.not_claimed hmn).1 hslot
    | sharedAlias =>
      rintro ⟨m, n, hmn, halias⟩
      exact (hs.not_claimed hmn).2 halias
    | cycle =>
      split at h
      · cases h
      · next hc => exact cycle?_referenceGraph_eq_none_iff.mp hc
  · intro n hn cause hbreaks
    exact (fits_of_placeAll_eq_ok hplaced n hn).not_breaksDown (Heap.breaks_iff.mpr hbreaks)

/-- A stack that synthesis makes a document of has no defect. -/
theorem not_has_of_synthesize_eq_ok {emit : Bool} {doc : Document}
    (h : (w.synthesize (.atom (.entity (.node stack true))) emit).2 = .ok doc) (d : Defect) :
    ¬ w.Has stack d := by
  rw [← (sameTrees_close w stack).has_iff]
  exact (not_has_of_documentOf_eq_ok (mapError_eq_ok.mp h)).1 d

/-- A taken slot is a shared one, and a taken alias a shared one, even if it cannot be shown. -/
private theorem defect_takenFault {p q : Placed} (hp : w.Places p) (hq : w.Places q)
    (hsub : [q.node, p.node].Sublist (w.blockNodes stack)) (hc : p.clashes q = true) :
    (∃ d, (w.takenFault p).defect? = some d ∧ w.Has stack d) ∨
      ∃ cause, w.takenFault p = .breakdown cause ∧ w.Breaks stack cause := by
  rcases (hp.clashes_iff hq).mp hc with hslot | halias
  · have hne : p.kind ≠ .provider := by
      intro hk
      have hpk := hp.kind_eq
      rw [hk] at hpk
      rcases hslot.2 with ⟨he, -⟩ | ⟨-, ⟨he, -⟩ | ⟨he, -⟩⟩ <;>
      · rw [hpk] at he
        cases he
    have hfault : w.takenFault p = .slotTaken (w.path p.node) p.id := if_neg hne
    rw [hfault]
    exact .inl ⟨.sharedSlot, rfl, q.node, p.node, hsub, hslot⟩
  · have hk : p.kind = .provider := by
      have hpk := halias.1
      rw [hp.kind_eq] at hpk
      exact NodeKind.block.inj hpk
    have hbody : p.providerAlias = w.aliasOf p.node := by
      rw [Placed.providerAlias, hp.body_eq, aliasOf]
    unfold takenFault aliasFault
    rw [if_pos hk, hbody]
    cases hshown : (w.aliasOf p.node).shown w.naming with
    | ok shown => exact .inl ⟨.sharedAlias, rfl, q.node, p.node, hsub, halias⟩
    | error cause =>
      obtain ⟨digits, hdigits, hlong, rfl⟩ := Naming.shown_eq_error.mp hshown
      exact .inr ⟨_, rfl, .sharedAlias hsub halias hdigits hlong⟩

/-- Where a stack is no document, the fault names a defect that the stack has, or synthesis broke
down. -/
theorem exists_defect_of_documentOf_eq_error (hw : ∀ n, KnownKind (w.node n).kind) {emit : Bool}
    {f : SynthesisFault} (h : w.documentOf stack emit = .error f) :
    (∃ d, f.defect? = some d ∧ w.Has stack d) ∨
      ∃ cause, f = .breakdown cause ∧ w.Breaks stack cause := by
  rw [documentOf_eq] at h
  rcases bind_eq_error.mp h with hplaced | ⟨placed, -, h⟩
  · rcases placeAll_eq_error hplaced with ⟨n, hn, hf | hk⟩ | ⟨q, p, hsub, hq, hp, hc, rfl⟩
    · cases hf with
      | unfit hu => exact .inl (exists_defect_of_unfit hn hu)
      | breakdown hb => exact .inr ⟨_, rfl, .properties hn (Heap.breaks_iff.mp hb)⟩
    · rcases hw n with hgroup | ⟨k, hblock⟩
      · simp [blockNodes, hgroup] at hn
      · exact absurd hblock (hk k)
    · exact defect_takenFault hp hq hsub hc
  · split at h
    · next c hc =>
      cases h
      refine .inl ⟨.cycle, rfl, ?_⟩
      apply Classical.byContradiction
      intro hn
      rw [cycle?_referenceGraph_eq_none_iff.mpr hn] at hc
      cases hc
    · cases h

/-- Without limits synthesis does not break down. -/
theorem not_breaks_of_no_limits (hw : w.limits = {}) (cause : Breakdown) : ¬ w.Breaks stack cause := by
  have hdigits : w.naming.digits = none := by rw [digits_naming, hw]
  intro h
  cases h with
  | properties hn h =>
    rw [hw] at h
    exact (Datum.fits_of_no_limits hdigits _).not_breaksDown (Heap.breaks_iff.mpr h)
  | sharedAlias _ _ hd => cases hdigits.symm.trans hd

/-- A fault of synthesis names a defect that the stack has. -/
theorem exists_defect_of_synthesize_eq_error (hw : Reached w) {emit : Bool} {e : Fault}
    (h : (w.synthesize (.atom (.entity (.node stack true))) emit).2 = .error e) :
    ∃ f d, e = .synthesis f ∧ f.defect? = some d ∧ w.Has stack d := by
  have hsame := sameTrees_close w stack
  have hkind : ∀ n, KnownKind ((w.close stack).node n).kind := fun n => by
    rw [hsame.kind_eq]
    exact hw.knownKind n
  obtain ⟨f, hf, rfl⟩ := mapError_eq_error.mp h
  rcases exists_defect_of_documentOf_eq_error hkind hf with ⟨d, hd, hhas⟩ | ⟨cause, -, hbreaks⟩
  · exact ⟨f, d, rfl, hd, (hsame.has_iff d).mp hhas⟩
  · have hlimits : (w.close stack).limits = {} := hw.limits_eq
    exact absurd hbreaks (not_breaks_of_no_limits hlimits cause)

/-- A workspace is under its own limits. -/
theorem under_limits (w : Workspace) : w.under w.limits = w := rfl

/-- A workspace under other limits has the same trees. -/
theorem sameTrees_under (w : Workspace) (limits : Limits) : SameTrees w (w.under limits) :=
  ⟨rfl, rfl, fun _ => ⟨_, rfl, rfl⟩⟩

/-- Under any limits, synthesis gives a document exactly if the stack has no defect and nothing in
the properties of its blocks is beyond the limits. Otherwise it fails with a fault of synthesis,
which names a defect that the stack has, or it breaks down: at the properties of a block, or at an
alias with too many digits that two providers share. -/
theorem synthesize_ok_iff_no_defect (hw : Reached w) (limits : Limits) (stack : NodeId) (emit : Bool) :
    ((∃ doc, ((w.under limits).synthesize (.atom (.entity (.node stack true))) emit).2 = .ok doc) ↔
        (∀ d, ¬ w.Has stack d) ∧ ∀ n ∈ w.blockNodes stack, ∀ cause,
          ¬ w.heap.Breaks ((w.under limits).close stack).naming limits.resolving
            (w.node n).properties cause) ∧
      ∀ e, ((w.under limits).synthesize (.atom (.entity (.node stack true))) emit).2 = .error e →
        (∃ f d, e = .synthesis f ∧ f.defect? = some d ∧ w.Has stack d) ∨
          ∃ cause, e = .synthesis (.breakdown cause) ∧
            ((w.under limits).close stack).Breaks stack cause := by
  have hsame : SameTrees w ((w.under limits).close stack) :=
    (sameTrees_under w limits).trans (sameTrees_close _ stack)
  have hkind : ∀ n, KnownKind (((w.under limits).close stack).node n).kind := fun n => by
    rw [hsame.kind_eq]
    exact hw.knownKind n
  have herror (e : Fault)
      (he : ((w.under limits).synthesize (.atom (.entity (.node stack true))) emit).2 = .error e) :
      (∃ f d, e = .synthesis f ∧ f.defect? = some d ∧ w.Has stack d) ∨
        ∃ cause, e = .synthesis (.breakdown cause) ∧
          ((w.under limits).close stack).Breaks stack cause := by
    obtain ⟨f, hf, rfl⟩ := mapError_eq_error.mp he
    rcases exists_defect_of_documentOf_eq_error hkind hf with ⟨d, hd, hhas⟩ | ⟨cause, rfl, hbreaks⟩
    · exact .inl ⟨f, d, rfl, hd, (hsame.has_iff d).mp hhas⟩
    · exact .inr ⟨cause, rfl, hbreaks⟩
  refine ⟨⟨?_, ?_⟩, herror⟩
  · rintro ⟨doc, hdoc⟩
    obtain ⟨hno, hfits⟩ := not_has_of_documentOf_eq_ok (mapError_eq_ok.mp hdoc)
    refine ⟨fun d hd => hno d ((hsame.has_iff d).mpr hd), fun n hn cause hbreaks => ?_⟩
    refine hfits n ((hsame.blockNodes_eq stack).symm ▸ hn) cause ?_
    rw [hsame.heap_eq, hsame.properties_eq]
    exact hbreaks
  · rintro ⟨hno, hfits⟩
    cases hresult : ((w.under limits).synthesize (.atom (.entity (.node stack true))) emit).2 with
    | ok doc => exact ⟨doc, rfl⟩
    | error e =>
      rcases herror e hresult with ⟨-, d, -, -, hhas⟩ | ⟨cause, -, hbreaks⟩
      · exact absurd hhas (hno d)
      · cases hbreaks with
        | properties hn h =>
          rw [hsame.heap_eq, hsame.properties_eq] at h
          exact absurd h (hfits _ (hsame.blockNodes_eq stack ▸ hn) _)
        | sharedAlias hmn h => exact absurd ⟨_, _, hmn, h⟩ (mt (hsame.has_iff .sharedAlias).mp (hno _))

/-- Requests that declare a block with a list and then put the list into itself. -/
def knotCalls : List Call :=
  [.createApp "", .createStack 0 (.text "stack"), .keep (.list []),
    .keep (.mapping [(.text "items", .cell 1)]),
    .addBlock 0 .resource (.text "vpc") (.text "main") (.cell 2), .push 1 (.cell 1)]

/-- The list in itself is what the fault names. -/
theorem synthesize_knot :
    ∃ f d, ((run {} knotCalls).synthesize (.atom (.entity (.node 0 true))) true).2 =
      .error (.synthesis f) ∧ f.defect? = some d ∧ (run {} knotCalls).Has 0 d := by
  have hw : Reached (run {} knotCalls) := Reached.start.run (by decide +kernel)
  have hno : (((run {} knotCalls).synthesize (.atom (.entity (.node 0 true))) true).2).isOk =
      false := by decide +kernel
  generalize run {} knotCalls = w at hw hno ⊢
  have hunder : w.under {} = w := by
    rw [← hw.limits_eq, under_limits]
  have hlimits : (w.close 0).limits = {} := hw.limits_eq
  cases h : (w.synthesize (.atom (.entity (.node 0 true))) true).2 with
  | ok doc =>
    rw [h] at hno
    cases hno
  | error e =>
    have hcause := (synthesize_ok_iff_no_defect hw {} 0 true).2 e
    rw [hunder] at hcause
    rcases hcause h with ⟨f, d, rfl, hf, hd⟩ | ⟨cause, -, hbreaks⟩
    · exact ⟨f, d, rfl, hf, hd⟩
    · exact absurd hbreaks (not_breaks_of_no_limits hlimits cause)

/-- How a synthesis broke down, if it did. -/
def breakdown? : Except Fault Document → Option Breakdown
  | .ok _ => none
  | .error e => e.breakdown?

/-- Requests that declare two providers of one type with one alias, an integer of very many digits. -/
def sharedAliasCalls : List Call :=
  [.createApp "", .createStack 0 (.text "stack"),
    .keep (.mapping [(.text "alias", .scalar (.int Limits.longInt))]),
    .addBlock 0 .provider (.text "aws") (.text "a") (.cell 1),
    .addBlock 0 .provider (.text "aws") (.text "b") (.cell 1)]

/-- Requests that declare a block with a list in a list. -/
def stackedCalls : List Call :=
  [.createApp "", .createStack 0 (.text "stack"), .keep (.list []), .keep (.list [.cell 1]),
    .keep (.mapping [(.text "items", .cell 2)]),
    .addBlock 0 .resource (.text "vpc") (.text "main") (.cell 3)]

/-- An alias that two providers share breaks synthesis down if it has too many digits to be shown;
and a block without a defect breaks it down if there is no room for its lists. -/
theorem synthesize_breaksDown :
    ((run {} sharedAliasCalls).Has 0 .sharedAlias ∧
      breakdown? (((run {} sharedAliasCalls).under .usual).synthesize
        (.atom (.entity (.node 0 true))) true).2 = some (.longNumeral Text.digitLimit)) ∧
      (∀ d, ¬ (run {} stackedCalls).Has 0 d) ∧
      breakdown? (((run {} stackedCalls).under { resolving := some 2 }).synthesize
        (.atom (.entity (.node 0 true))) true).2 = some (.tooDeep .values) := by
  refine ⟨⟨?_, by decide +kernel⟩, fun d => ?_, by decide +kernel⟩
  · have hnodes : (run {} sharedAliasCalls).blockNodes 0 = [1, 2] := by decide +kernel
    refine ⟨1, 2, by rw [hnodes], ?_⟩
    exact ⟨by decide +kernel, by decide +kernel, by decide +kernel, by decide +kernel⟩
  · have hok : ((run {} stackedCalls).synthesize (.atom (.entity (.node 0 true))) true).2.isOk =
        true := by decide +kernel
    cases h : ((run {} stackedCalls).synthesize (.atom (.entity (.node 0 true))) true).2 with
    | ok doc => exact not_has_of_synthesize_eq_ok h d
    | error e =>
      rw [h] at hok
      cases hok

end Workspace

end Groundplan
