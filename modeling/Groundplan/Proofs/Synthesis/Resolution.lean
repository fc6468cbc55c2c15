import Groundplan.Proofs.Datum.Limits
import Groundplan.Proofs.Datum.Relabelling
import Groundplan.Proofs.Sequencing
import Groundplan.Synthesis.Basic

/-!
# Bodies of blocks

Resolving succeeds exactly if the datum has no loop, every leaf of it is supported, every reference
in it points into the stack and nothing in it is beyond the limits; it then gives the datum with
tokens for references and all containers open. Where it fails, the fault names a defect that the
datum has, or resolving broke down.
-/

namespace Groundplan

/-- A leaf that properties may have: a reference, or a scalar other than a number that is not
finite. -/
def Atom.Supported : Atom → Prop
  | .scalar (.float x) => x.isFinite = true
  | .scalar _ => True
  | .reference _ => True
  | _ => False

namespace Datum

/-- A part that a body may have: a container, or a scalar other than a number that is not finite. -/
def Plain : Datum → Prop
  | .atom (.scalar (.float x)) => x.isFinite = true
  | .atom (.scalar _) => True
  | .atom _ => False
  | .loop _ => False
  | .sequence _ _ => True
  | .mapping _ _ => True

/-- Tokens are set item by item. -/
@[simp] theorem withTokensItems_eq_map (token : Reference → String) (ds : List Datum) :
    withTokensItems token ds = ds.map (withTokens token) := by
  induction ds with
  | nil => rfl
  | cons d ds ih => simp [withTokensItems, ih]

/-- Tokens are set entry by entry. -/
@[simp] theorem withTokensEntries_eq_map (token : Reference → String)
    (es : List (Key × Datum)) :
    withTokensEntries token es = es.map fun (k, d) => (k, withTokens token d) := by
  induction es with
  | nil => rfl
  | cons e es ih => obtain ⟨k, d⟩ := e; simp [withTokensEntries, ih]

end Datum

/-- What can be wrong with a datum as the properties of a block. -/
inductive Unfit (w : Workspace) (stack : NodeId) (d : Datum) : SynthesisFault → Prop
  | loop {c : Container} (path : String) (hc : Datum.Within (.loop c) d) :
      Unfit w stack d (.selfContaining path)
  | notFinite {x : Binary64} (path : String) (hx : Datum.Within (.scalar (.float x)) d)
      (hf : x.isFinite = false) : Unfit w stack d (.notFinite path)
  | unsupported {a : Atom} (path : String) (ha : Datum.Within (.atom a) d)
      (hs : ¬ a.Supported) : Unfit w stack d (.unsupported path a.typeName)
  | foreign {r : Reference} (path : String) (hr : Datum.Within (.atom (.reference r)) d)
      (hroot : w.root r.target ≠ stack) :
      Unfit w stack d (.unresolved path (w.path r.target) (w.node stack).id)

variable {w : Workspace} {stack : NodeId} {naming : Naming} {room : Room}

theorem Unfit.of_item {fixed : Bool} {items : List Datum} {d : Datum} {f : SynthesisFault}
    (hd : d ∈ items) (h : Unfit w stack d f) : Unfit w stack (.sequence fixed items) f := by
  cases h with
  | loop path hc => exact .loop path (.item hd hc)
  | notFinite path hx hf => exact .notFinite path (.item hd hx) hf
  | unsupported path ha hs => exact .unsupported path (.item hd ha) hs
  | foreign path hr hroot => exact .foreign path (.item hd hr) hroot

theorem Unfit.of_entry {fixed : Bool} {es : List (Key × Datum)} {e : Key × Datum}
    {f : SynthesisFault} (he : e ∈ es) (h : Unfit w stack e.2 f) :
    Unfit w stack (.mapping fixed es) f := by
  cases h with
  | loop path hc => exact .loop path (.entry he hc)
  | notFinite path hx hf => exact .notFinite path (.entry he hx) hf
  | unsupported path ha hs => exact .unsupported path (.entry he ha) hs
  | foreign path hr hroot => exact .foreign path (.entry he hr) hroot

private theorem unfit_of_resolveAtom {path : String} {a : Atom} {f : SynthesisFault}
    (h : resolveAtom (w.renderIn stack) path a = .error f) : Unfit w stack (.atom a) f := by
  unfold resolveAtom at h
  split at h
  · next r =>
    simp only [Workspace.renderIn] at h
    split at h
    · cases h
    · next hroot =>
      cases h
      exact .foreign path (.refl _) hroot
  · next x =>
    split at h
    · cases h
    · next hf =>
      cases h
      exact .notFinite path (.refl _) (by simpa using hf)
  · cases h
  · next hr hx hs =>
    cases h
    refine .unsupported path (.refl _) ?_
    cases a with
    | scalar s => exact absurd rfl (hs s)
    | reference r => exact absurd rfl (hr r)
    | _ => exact id

/-- Why a datum is not resolved: it is unfit, or going through it breaks down. -/
inductive Fails (w : Workspace) (stack : NodeId) (naming : Naming) (room : Room) (d : Datum) :
    SynthesisFault → Prop
  | unfit {f : SynthesisFault} (h : Unfit w stack d f) : Fails w stack naming room d f
  | breakdown {cause : Breakdown} (h : d.BreaksDown naming room cause) :
      Fails w stack naming room d (.breakdown cause)

theorem Fails.of_item {inner : Room} (hroom : room.enter .values = .ok inner) {fixed : Bool}
    {items : List Datum} {d : Datum} {f : SynthesisFault} (hd : d ∈ items)
    (h : Fails w stack naming inner d f) : Fails w stack naming room (.sequence fixed items) f := by
  cases h with
  | unfit h => exact .unfit (h.of_item hd)
  | breakdown h => exact .breakdown (h.of_item hroom hd)

theorem Fails.of_entry {inner : Room} (hroom : room.enter .values = .ok inner) {fixed : Bool}
    {es : List (Key × Datum)} {e : Key × Datum} {f : SynthesisFault} (he : e ∈ es)
    (h : Fails w stack naming inner e.2 f) : Fails w stack naming room (.mapping fixed es) f := by
  cases h with
  | unfit h => exact .unfit (h.of_entry he)
  | breakdown h => exact .breakdown (h.of_entry hroom he)

private theorem exists_fails_of_resolveItems {items : List Datum}
    (hi : ∀ d ∈ items, ∀ path f,
      resolve naming room (w.renderIn stack) path d = .error f → Fails w stack naming room d f)
    {path : String} {index : Nat} {f : SynthesisFault}
    (h : resolveItems naming room (w.renderIn stack) path index items = .error f) :
    ∃ d ∈ items, Fails w stack naming room d f := by
  induction items generalizing index with
  | nil => cases h
  | cons d ds ih =>
    rw [resolveItems] at h
    split at h
    · next e he =>
      cases h
      exact ⟨d, List.mem_cons_self, hi d List.mem_cons_self _ _ he⟩
    · split at h
      · next e he =>
        cases h
        obtain ⟨d', hd', hf⟩ := ih (fun d' hd' => hi d' (List.mem_cons_of_mem _ hd')) he
        exact ⟨d', List.mem_cons_of_mem _ hd', hf⟩
      · cases h

private theorem fails_of_resolveEntries {es : List (Key × Datum)}
    (hi : ∀ e ∈ es, ∀ path f,
      resolve naming room (w.renderIn stack) path e.2 = .error f → Fails w stack naming room e.2 f)
    {path : String} {f : SynthesisFault}
    (h : resolveEntries naming room (w.renderIn stack) path es = .error f) :
    (∃ e ∈ es, Fails w stack naming room e.2 f) ∨
      ∃ k ∈ Entries.keys es, ∃ cause, k.shownPlain naming = .error cause ∧ f = .breakdown cause := by
  induction es with
  | nil => cases h
  | cons e es ih =>
    obtain ⟨k, d⟩ := e
    rw [resolveEntries] at h
    split at h
    · next cause hk =>
      cases h
      exact .inr ⟨k, List.mem_cons_self, cause, hk, rfl⟩
    · split at h
      · next f' hf =>
        cases h
        exact .inl ⟨(k, d), List.mem_cons_self, hi (k, d) List.mem_cons_self _ _ hf⟩
      · split at h
        · next f' hf =>
          cases h
          rcases ih (fun e' he' => hi e' (List.mem_cons_of_mem _ he')) hf with
            ⟨e', he', hfails⟩ | ⟨k', hk', hbreaks⟩
          · exact .inl ⟨e', List.mem_cons_of_mem _ he', hfails⟩
          · exact .inr ⟨k', List.mem_cons_of_mem _ hk', hbreaks⟩
        · cases h

/-- What is refused as a body has the defect that the fault names, or breaks down. -/
theorem fails_of_resolve {path : String} {d : Datum} {f : SynthesisFault}
    (h : resolve naming room (w.renderIn stack) path d = .error f) : Fails w stack naming room d f := by
  induction d using Datum.induction generalizing room path f with
  | atom a => exact .unfit (unfit_of_resolveAtom h)
  | loop c =>
    rw [resolve] at h
    split at h
    · cases h
      exact .unfit (.loop path (.refl _))
    · next hroom =>
      cases h
      exact .breakdown (Datum.breaksDown_of_enter hroom Nat.one_pos)
  | sequence fixed items ih =>
    rw [resolve] at h
    split at h
    · next hroom =>
      obtain ⟨d, hd, hf⟩ :=
        exists_fails_of_resolveItems (fun d hd path f hf => ih d hd hf) (map_eq_error.mp h)
      exact hf.of_item hroom hd
    · next hroom =>
      cases h
      exact .breakdown (Datum.breaksDown_of_enter hroom (Nat.succ_pos _))
  | mapping fixed es ih =>
    rw [resolve] at h
    split at h
    · next hroom =>
      rcases fails_of_resolveEntries (fun e he path f hf => ih e he hf) (map_eq_error.mp h) with
        ⟨e, he, hf⟩ | ⟨k, hk, cause, hlong, rfl⟩
      · exact hf.of_entry hroom he
      · exact .breakdown (Datum.breaksDown_of_key hk hlong)
    · next hroom =>
      cases h
      exact .breakdown (Datum.breaksDown_of_enter hroom (Nat.succ_pos _))

/-- What can be the properties of a block of a stack. -/
structure Resolvable (w : Workspace) (stack : NodeId) (d : Datum) : Prop where
  loopFree : d.LoopFree
  supported : ∀ {a : Atom}, Datum.Within (.atom a) d → a.Supported
  root_eq : ∀ {r : Reference}, Datum.Within (.atom (.reference r)) d → w.root r.target = stack

private theorem Resolvable.of_atom {a : Atom} (hs : a.Supported)
    (hr : ∀ r, a = .reference r → w.root r.target = stack) : Resolvable w stack (.atom a) where
  loopFree := Datum.loopFree_atom a
  supported ha := by
    cases Datum.within_atom.mp ha
    exact hs
  root_eq ha := by
    cases Datum.within_atom.mp ha
    exact hr _ rfl

theorem resolvable_sequence {fixed : Bool} {items : List Datum} :
    Resolvable w stack (.sequence fixed items) ↔ ∀ d ∈ items, Resolvable w stack d := by
  constructor
  · intro h d hd
    exact ⟨Datum.loopFree_sequence.mp h.loopFree d hd, fun ha => h.supported (.item hd ha),
      fun hr => h.root_eq (.item hd hr)⟩
  · intro h
    refine ⟨Datum.loopFree_sequence.mpr fun d hd => (h d hd).loopFree, ?_, ?_⟩
    · intro a ha
      rcases Datum.within_sequence.mp ha with he | ⟨d, hd, ha⟩
      · cases he
      · exact (h d hd).supported ha
    · intro r hr
      rcases Datum.within_sequence.mp hr with he | ⟨d, hd, hr⟩
      · cases he
      · exact (h d hd).root_eq hr

theorem resolvable_mapping {fixed : Bool} {es : List (Key × Datum)} :
    Resolvable w stack (.mapping fixed es) ↔ ∀ e ∈ es, Resolvable w stack e.2 := by
  constructor
  · intro h e he
    exact ⟨Datum.loopFree_mapping.mp h.loopFree e he, fun ha => h.supported (.entry he ha),
      fun hr => h.root_eq (.entry he hr)⟩
  · intro h
    refine ⟨Datum.loopFree_mapping.mpr fun e he => (h e he).loopFree, ?_, ?_⟩
    · intro a ha
      rcases Datum.within_mapping.mp ha with he | ⟨e, he, ha⟩
      · cases he
      · exact (h e he).supported ha
    · intro r hr
      rcases Datum.within_mapping.mp hr with he | ⟨e, he, hr⟩
      · cases he
      · exact (h e he).root_eq hr

/-- A datum as the body of a block: references are tokens, and all containers are open. -/
def Workspace.bodyOf (w : Workspace) (d : Datum) : Datum := (d.withTokens w.token).thaw

/-- The body of a sequence is a list. -/
theorem Workspace.bodyOf_sequence (fixed : Bool) (items : List Datum) :
    w.bodyOf (.sequence fixed items) = .list (items.map w.bodyOf) := by
  simp [bodyOf, Datum.thaw, Datum.withTokens, Datum.withFixed]

/-- The body of a mapping is open and has the same keys. -/
theorem Workspace.bodyOf_mapping (fixed : Bool) (es : Entries Datum) :
    w.bodyOf (.mapping fixed es) = .mapping false (es.mapValues w.bodyOf) := by
  simp [bodyOf, Datum.thaw, Datum.withTokens, Datum.withFixed, Entries.mapValues]

/-- A body has the containers of what it is made from, with their keys. -/
theorem Workspace.relabels_bodyOf (w : Workspace) : Datum.Relabels w.bodyOf where
  atom a := by cases a <;> exact ⟨_, rfl⟩
  loop _ := rfl
  sequence fixed items := ⟨false, w.bodyOf_sequence fixed items⟩
  mapping fixed es := ⟨false, w.bodyOf_mapping fixed es⟩

/-- All leaves of a body are scalars that JSON has a form for. -/
theorem Workspace.everywhere_plain_bodyOf {d : Datum} (hr : Resolvable w stack d) :
    (w.bodyOf d).Everywhere Datum.Plain := by
  rw [w.relabels_bodyOf.everywhere_iff]
  intro x hx
  cases x with
  | atom a =>
    have hs : a.Supported := hr.supported hx
    cases a with
    | scalar s => cases s <;> exact hs
    | reference r => trivial
    | _ => cases hs
  | loop c => exact absurd hx (hr.loopFree c)
  | sequence fixed items =>
    rw [Workspace.bodyOf_sequence]
    trivial
  | mapping fixed es =>
    rw [Workspace.bodyOf_mapping]
    trivial

private theorem resolveAtom_eq_ok {path : String} {a : Atom} {r : Datum}
    (h : resolveAtom (w.renderIn stack) path a = .ok r) :
    Resolvable w stack (.atom a) ∧ r = w.bodyOf (.atom a) := by
  unfold resolveAtom at h
  split at h
  · next ref =>
    obtain ⟨s, hs, rfl⟩ := map_eq_ok.mp h
    simp only [Workspace.renderIn] at hs
    split at hs
    · next hroot =>
      cases hs
      refine ⟨.of_atom trivial fun r he => ?_, rfl⟩
      cases he
      exact hroot
    · cases hs
  · split at h
    · next hf =>
      cases h
      exact ⟨.of_atom hf (fun r he => by cases he), rfl⟩
    · cases h
  · next s hx =>
    cases h
    refine ⟨.of_atom ?_ (fun r he => by cases he), rfl⟩
    cases s with
    | float x => exact absurd rfl (hx x)
    | _ => trivial
  · cases h

private theorem resolveItems_eq_ok {items : List Datum}
    (hi : ∀ d ∈ items, ∀ path r, resolve naming room (w.renderIn stack) path d = .ok r →
      (Resolvable w stack d ∧ d.Fits naming room) ∧ r = w.bodyOf d)
    {path : String} {index : Nat} {rs : List Datum}
    (h : resolveItems naming room (w.renderIn stack) path index items = .ok rs) :
    (∀ d ∈ items, Resolvable w stack d ∧ d.Fits naming room) ∧ rs = items.map w.bodyOf := by
  induction items generalizing index rs with
  | nil =>
    cases h
    exact ⟨by simp, rfl⟩
  | cons d ds ih =>
    rw [resolveItems] at h
    split at h
    · cases h
    · next r hr =>
      split at h
      · cases h
      · next rs' hrs =>
        cases h
        obtain ⟨hd, rfl⟩ := hi d List.mem_cons_self _ _ hr
        obtain ⟨hds, rfl⟩ := ih (fun d' hd' => hi d' (List.mem_cons_of_mem _ hd')) hrs
        exact ⟨List.forall_mem_cons.mpr ⟨hd, hds⟩, rfl⟩

private theorem resolveEntries_eq_ok {es : List (Key × Datum)}
    (hi : ∀ e ∈ es, ∀ path r, resolve naming room (w.renderIn stack) path e.2 = .ok r →
      (Resolvable w stack e.2 ∧ e.2.Fits naming room) ∧ r = w.bodyOf e.2)
    {path : String} {rs : List (Key × Datum)}
    (h : resolveEntries naming room (w.renderIn stack) path es = .ok rs) :
    (∀ k ∈ Entries.keys es, k.Shows naming) ∧
      (∀ e ∈ es, Resolvable w stack e.2 ∧ e.2.Fits naming room) ∧
      rs = es.map fun e => (e.1, w.bodyOf e.2) := by
  induction es generalizing rs with
  | nil =>
    cases h
    exact ⟨by simp [Entries.keys], by simp, rfl⟩
  | cons e es ih =>
    obtain ⟨k, d⟩ := e
    rw [resolveEntries] at h
    split at h
    · cases h
    · next key hkey =>
      split at h
      · cases h
      · next r hr =>
        split at h
        · cases h
        · next rs' hrs =>
          cases h
          obtain ⟨hd, rfl⟩ := hi (k, d) List.mem_cons_self _ _ hr
          obtain ⟨hkeys, hds, rfl⟩ := ih (fun e' he' => hi e' (List.mem_cons_of_mem _ he')) hrs
          exact ⟨List.forall_mem_cons.mpr ⟨Key.shows_of_shownPlain hkey, hkeys⟩,
            List.forall_mem_cons.mpr ⟨hd, hds⟩, rfl⟩

/-- What is accepted as a body is resolvable and within the limits, and the body is the datum with
tokens in it. -/
theorem resolve_eq_ok {path : String} {d r : Datum}
    (h : resolve naming room (w.renderIn stack) path d = .ok r) :
    (Resolvable w stack d ∧ d.Fits naming room) ∧ r = w.bodyOf d := by
  induction d using Datum.induction generalizing room path r with
  | atom a =>
    obtain ⟨hd, rfl⟩ := resolveAtom_eq_ok h
    exact ⟨⟨hd, Datum.fits_atom naming room a⟩, rfl⟩
  | loop c =>
    rw [resolve] at h
    split at h <;> cases h
  | sequence fixed items ih =>
    rw [resolve] at h
    split at h
    · next hroom =>
      obtain ⟨rs, hrs, rfl⟩ := map_eq_ok.mp h
      obtain ⟨hd, rfl⟩ := resolveItems_eq_ok (fun d hd path r hr => ih d hd hr) hrs
      exact ⟨⟨resolvable_sequence.mpr fun d hmem => (hd d hmem).1,
        (Datum.fits_sequence hroom).mpr fun d hmem => (hd d hmem).2⟩,
        (w.bodyOf_sequence fixed items).symm⟩
    · cases h
  | mapping fixed es ih =>
    rw [resolve] at h
    split at h
    · next hroom =>
      obtain ⟨rs, hrs, rfl⟩ := map_eq_ok.mp h
      obtain ⟨hkeys, hd, rfl⟩ := resolveEntries_eq_ok (fun e he path r hr => ih e he hr) hrs
      exact ⟨⟨resolvable_mapping.mpr fun e hmem => (hd e hmem).1,
        (Datum.fits_mapping hroom).mpr ⟨hkeys, fun e hmem => (hd e hmem).2⟩⟩,
        (w.bodyOf_mapping fixed es).symm⟩
    · cases h

end Groundplan
