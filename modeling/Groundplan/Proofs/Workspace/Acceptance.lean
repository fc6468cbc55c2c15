import Groundplan.Proofs.Datum.Relabelling
import Groundplan.Proofs.Heap.Reading
import Groundplan.Proofs.Heap.Writing
import Groundplan.Proofs.Synthesis.Resolution
import Groundplan.Proofs.Workspace.Step

/-!
# What is accepted

The checks of what a request hands over, said of the containers themselves. An identifier is
accepted exactly if it is a text that is not blank and has no slash; a value is accepted as a
property exactly if all leaves that it reaches are supported, all mappings that it reaches have
names for keys and there is room for it, whether or not a container stands inside itself.
-/

namespace Groundplan

/-- All keys are texts other than the empty one. -/
def Entries.Named {α : Type} (es : Entries α) : Prop := ∀ k ∈ es.keys, ∃ s, k = .text s ∧ s ≠ ""

@[simp] theorem Entries.named_nil {α : Type} : Entries.Named ([] : Entries α) := by
  simp [Named, keys]

@[simp] theorem Entries.named_cons {α : Type} {k : Key} {a : α} {es : Entries α} :
    Entries.Named ((k, a) :: es) ↔ (∃ s, k = .text s ∧ s ≠ "") ∧ es.Named :=
  List.forall_mem_cons

namespace Datum

/-- A datum that a property may be: its leaves are supported, and the keys of its mappings are
names. -/
structure Acceptable (d : Datum) : Prop where
  supported : ∀ {a : Atom}, Within (.atom a) d → a.Supported
  named : ∀ {fixed : Bool} {es : Entries Datum}, Within (.mapping fixed es) d → es.Named

theorem acceptable_atom {a : Atom} : Acceptable (.atom a) ↔ a.Supported := by
  constructor
  · intro h
    exact h.supported (.refl _)
  · intro h
    refine ⟨fun hw => ?_, fun hw => ?_⟩
    · cases within_atom.mp hw
      exact h
    · cases within_atom.mp hw

theorem acceptable_loop (c : Container) : Acceptable (.loop c) where
  supported hw := by cases within_loop.mp hw
  named hw := by cases within_loop.mp hw

theorem acceptable_sequence {fixed : Bool} {items : List Datum} :
    Acceptable (.sequence fixed items) ↔ ∀ d ∈ items, Acceptable d := by
  constructor
  · intro h d hd
    exact ⟨fun hw => h.supported (.item hd hw), fun hw => h.named (.item hd hw)⟩
  · intro h
    refine ⟨fun hw => ?_, fun hw => ?_⟩
    · rcases within_sequence.mp hw with he | ⟨d, hd, hw⟩
      · cases he
      · exact (h d hd).supported hw
    · rcases within_sequence.mp hw with he | ⟨d, hd, hw⟩
      · cases he
      · exact (h d hd).named hw

theorem acceptable_mapping {fixed : Bool} {es : Entries Datum} :
    Acceptable (.mapping fixed es) ↔ es.Named ∧ ∀ e ∈ es, Acceptable e.2 := by
  constructor
  · intro h
    refine ⟨h.named (.refl _), fun e he => ?_⟩
    exact ⟨fun hw => h.supported (.entry he hw), fun hw => h.named (.entry he hw)⟩
  · rintro ⟨hnamed, h⟩
    refine ⟨fun hw => ?_, fun hw => ?_⟩
    · rcases within_mapping.mp hw with he | ⟨e, he, hw⟩
      · cases he
      · exact (h e he).supported hw
    · rcases within_mapping.mp hw with he | ⟨e, he, hw⟩
      · cases he
        exact hnamed
      · exact (h e he).named hw

end Datum

section Checks

variable {naming : Naming}

private theorem checkAtom_eq_ok_iff {path : String} {a : Atom} :
    checkAtom path a = .ok () ↔ a.Supported := by
  unfold checkAtom
  split
  · next x =>
    by_cases hx : x.isFinite = true <;> simp [hx, Atom.Supported]
  · next s hs =>
    have h : (Atom.scalar s).Supported := by
      cases s with
      | float x => exact absurd rfl (hs x)
      | _ => trivial
    exact iff_of_true rfl h
  · exact iff_of_true rfl trivial
  · next hx hs hr =>
    refine iff_of_false (by simp) ?_
    cases a with
    | scalar s => exact absurd rfl (hs s)
    | reference r => exact absurd rfl (hr r)
    | _ => exact id

private theorem checkKey_isOk_iff (naming : Naming) (path : String) {k : Key} :
    (∃ s, checkKey naming path k = .ok s) ↔ ∃ s, k = .text s ∧ s ≠ "" := by
  constructor
  · rintro ⟨s, h⟩
    exact ⟨s, Workspace.checkKey_eq_ok h⟩
  · rintro ⟨s, rfl, hs⟩
    exact ⟨s, by simp [checkKey, hs]⟩

private theorem checkItems_eq_ok_iff {room : Room} {items : List Datum}
    (hi : ∀ d ∈ items, ∀ path,
      checkValue naming room path d = .ok () ↔ d.Acceptable ∧ room.Holds d.depth)
    (path : String) (index : Nat) :
    checkItems naming room path index items = .ok () ↔
      ∀ d ∈ items, d.Acceptable ∧ room.Holds d.depth := by
  induction items generalizing index with
  | nil => simp [checkItems]
  | cons d ds ih =>
    obtain ⟨hd, hds⟩ := List.forall_mem_cons.mp hi
    rw [checkItems, List.forall_mem_cons, ← hd (itemPath path index), ← ih hds (index + 1)]
    cases checkValue naming room (itemPath path index) d <;> simp

private theorem checkEntries_eq_ok_iff {room : Room} {es : List (Key × Datum)}
    (hi : ∀ e ∈ es, ∀ path,
      checkValue naming room path e.2 = .ok () ↔ e.2.Acceptable ∧ room.Holds e.2.depth)
    {path : String} :
    checkEntries naming room path es = .ok () ↔
      Entries.Named es ∧ ∀ e ∈ es, e.2.Acceptable ∧ room.Holds e.2.depth := by
  induction es with
  | nil => simp [checkEntries]
  | cons e es ih =>
    obtain ⟨k, d⟩ := e
    obtain ⟨hd, hes⟩ := List.forall_mem_cons.mp hi
    dsimp only at hd
    rw [checkEntries, Entries.named_cons, List.forall_mem_cons, ← checkKey_isOk_iff naming path,
      and_and_and_comm, ← ih hes]
    cases checkKey naming path k with
    | error e => simp
    | ok key =>
      dsimp only
      rw [← hd (keyPath path key)]
      cases checkValue naming room (keyPath path key) d <;> simp

/-- Just the acceptable that there is room for is accepted as a property. -/
theorem checkValue_eq_ok_iff (naming : Naming) (room : Room) (path : String) {d : Datum} :
    checkValue naming room path d = .ok () ↔ d.Acceptable ∧ room.Holds d.depth := by
  induction d using Datum.induction generalizing room path with
  | atom a =>
    have hroom : room.Holds (Datum.atom a).depth := fun _ _ => Nat.zero_le _
    rw [checkValue, checkAtom_eq_ok_iff, Datum.acceptable_atom, and_iff_left hroom]
  | loop c =>
    rw [checkValue, and_iff_right (Datum.acceptable_loop c), Datum.depth]
    cases hroom : room.enter .values with
    | ok inner => exact iff_of_true rfl ((Room.holds_succ_iff hroom 0).mpr fun _ _ => Nat.zero_le _)
    | error cause => exact iff_of_false (fun h => by cases h) (Room.not_holds_succ hroom 0)
  | sequence fixed items ih =>
    rw [checkValue, Datum.depth]
    cases hroom : room.enter .values with
    | ok inner =>
      rw [Datum.acceptable_sequence, Room.holds_succ_iff hroom, Datum.holds_depthOfItems_iff]
      refine (checkItems_eq_ok_iff (fun d hd => ih d hd inner) path 0).trans ?_
      simp only [imp_and, forall_and]
    | error cause => exact iff_of_false (fun h => by cases h) fun h => Room.not_holds_succ hroom _ h.2
  | mapping fixed es ih =>
    rw [checkValue, Datum.depth]
    cases hroom : room.enter .values with
    | ok inner =>
      rw [Datum.acceptable_mapping, Room.holds_succ_iff hroom, Datum.holds_depthOfEntries_iff,
        and_assoc]
      refine (checkEntries_eq_ok_iff fun e he => ih e he inner).trans ?_
      simp only [imp_and, forall_and]
    | error cause => exact iff_of_false (fun h => by cases h) fun h => Room.not_holds_succ hroom _ h.2

private theorem breaksDown_of_checkKey {path : String} {k : Key} {cause : Breakdown}
    (h : checkKey naming path k = .error (.breakdown cause)) : k.shown naming = .error cause := by
  have hshown (hbad : badKey path (k.shown naming) = .breakdown cause) :
      k.shown naming = .error cause := by
    cases hk : k.shown naming with
    | ok shown =>
      rw [hk] at hbad
      cases hbad
    | error cause' =>
      rw [hk] at hbad
      cases hbad
      rfl
  unfold checkKey at h
  split at h
  · split at h
    · exact hshown (Except.error.inj h)
    · cases h
  · exact hshown (Except.error.inj h)

private theorem breaksDown_of_checkItems {room : Room} {items : List Datum} {cause : Breakdown}
    (hi : ∀ d ∈ items, ∀ path, checkValue naming room path d = .error (.breakdown cause) →
      d.BreaksDown naming room cause) {path : String} {index : Nat}
    (h : checkItems naming room path index items = .error (.breakdown cause)) :
    ∃ d ∈ items, d.BreaksDown naming room cause := by
  induction items generalizing index with
  | nil => cases h
  | cons d ds ih =>
    obtain ⟨hd, hds⟩ := List.forall_mem_cons.mp hi
    rw [checkItems] at h
    split at h
    · obtain ⟨d', hd', hbreaks⟩ := ih hds h
      exact ⟨d', List.mem_cons_of_mem _ hd', hbreaks⟩
    · next hcheck =>
      cases h
      exact ⟨d, List.mem_cons_self, hd _ hcheck⟩

private theorem breaksDown_of_checkEntries {room : Room} {es : Entries Datum} {cause : Breakdown}
    (hi : ∀ e ∈ es, ∀ path, checkValue naming room path e.2 = .error (.breakdown cause) →
      e.2.BreaksDown naming room cause) {path : String}
    (h : checkEntries naming room path es = .error (.breakdown cause)) :
    (∃ e ∈ es, e.2.BreaksDown naming room cause) ∨ ∃ k ∈ es.keys, k.shown naming = .error cause := by
  induction es with
  | nil => cases h
  | cons e es ih =>
    obtain ⟨k, d⟩ := e
    obtain ⟨hd, hes⟩ := List.forall_mem_cons.mp hi
    rw [checkEntries] at h
    split at h
    · next hk =>
      cases h
      exact .inr ⟨k, List.mem_cons_self, breaksDown_of_checkKey hk⟩
    · split at h
      · rcases ih hes h with ⟨e', he', hbreaks⟩ | ⟨k', hk', hshown⟩
        · exact .inl ⟨e', List.mem_cons_of_mem _ he', hbreaks⟩
        · exact .inr ⟨k', List.mem_cons_of_mem _ hk', hshown⟩
      · next hcheck =>
        cases h
        exact .inl ⟨(k, d), List.mem_cons_self, hd _ hcheck⟩

/-- A check breaks down only where going through the datum does. -/
theorem breaksDown_of_checkValue {room : Room} {path : String} {d : Datum} {cause : Breakdown}
    (h : checkValue naming room path d = .error (.breakdown cause)) :
    d.BreaksDown naming room cause := by
  induction d using Datum.induction generalizing room path with
  | atom a =>
    rw [checkValue] at h
    unfold checkAtom at h
    split at h
    · split at h <;> cases h
    all_goals cases h
  | loop c =>
    rw [checkValue] at h
    split at h
    · cases h
    · next hroom =>
      cases h
      exact Datum.breaksDown_of_enter hroom Nat.one_pos
  | sequence fixed items ih =>
    rw [checkValue] at h
    split at h
    · next hroom =>
      obtain ⟨d, hd, hbreaks⟩ := breaksDown_of_checkItems (fun d hd path h => ih d hd h) h
      exact hbreaks.of_item hroom hd
    · next hroom =>
      cases h
      exact Datum.breaksDown_of_enter hroom (Nat.succ_pos _)
  | mapping fixed es ih =>
    rw [checkValue] at h
    split at h
    · next hroom =>
      rcases breaksDown_of_checkEntries (fun e he path h => ih e he h) h with
        ⟨e, he, hbreaks⟩ | ⟨k, hk, hshown⟩
      · exact hbreaks.of_entry hroom he
      · exact Datum.breaksDown_of_key hk hshown
    · next hroom =>
      cases h
      exact Datum.breaksDown_of_enter hroom (Nat.succ_pos _)

end Checks

namespace Heap

variable {h : Heap}

/-- Reading a mapping, or a view of one, gives its entries. -/
theorem layer_of_entries? {id : CellId} {es : Entries Value} (hes : h.entries? id = some es)
    (f : Value → Datum) : ∃ fixed, h.layer id f = .mapping fixed (es.mapValues f) := by
  unfold layer
  split
  · next hid => simp [entries?, hid] at hes
  · next hid => simp [entries?, hid] at hes
  · next hid =>
    rw [entries?_of_mapping hid] at hes
    cases hes
    exact ⟨_, rfl⟩
  · exact ⟨true, by rw [hes]; rfl⟩
  · next hid => simp [entries?, hid] at hes

/-- A container that becomes a mapping has the entries of that, or none. -/
theorem entries?_of_layer_mapping {id : CellId} {f : Value → Datum} {fixed : Bool}
    {es : Entries Datum} (h' : h.layer id f = .mapping fixed es) :
    es = [] ∨ ∃ es', h.entries? id = some es' ∧ es = es'.mapValues f := by
  cases hes : h.entries? id with
  | some es' =>
    obtain ⟨fixed', hlayer⟩ := layer_of_entries? hes f
    rw [hlayer] at h'
    cases h'
    exact .inr ⟨es', rfl, rfl⟩
  | none =>
    unfold layer at h'
    split at h'
    · cases h'
    · cases h'
    · next hid =>
      rw [entries?_of_mapping hid] at hes
      cases hes
    · rw [hes] at h'
      cases h'
      exact .inl rfl
    · cases h'

/-- A value that a property may be: the leaves that it reaches are supported, and the keys of the
mappings that it reaches are names. -/
structure Valid (h : Heap) (v : Value) : Prop where
  supported : ∀ {a : Atom}, h.Reaches v (.atom a) → a.Supported
  named : ∀ {c : CellId} {es : Entries Value}, h.Reaches v (.cell c) → h.entries? c = some es →
    es.Named

/-- The keys at every depth of what a value reads as are those of the mappings that it reaches. -/
theorem allKeys_datum_iff {P : List Key → Prop} (hnil : P []) {v : Value} :
    (h.datum v).AllKeys P ↔
      ∀ c es, h.Reaches v (.cell c) → h.entries? c = some es → P es.keys := by
  rw [Datum.allKeys_iff_mapping hnil]
  constructor
  · intro hd c es hr hes
    obtain ⟨f, hf⟩ := shows_datum_of_reaches hr
    obtain ⟨fixed, hlayer⟩ := layer_of_entries? hes f
    rw [hlayer] at hf
    rw [← Entries.keys_mapValues f]
    exact hd _ _ hf
  · intro hv fixed es hw
    rcases within_read hw with ⟨c, he⟩ | ⟨b, he, -⟩ | ⟨id, f, he, hr⟩
    · cases he
    · cases he
    · rcases entries?_of_layer_mapping he.symm with rfl | ⟨es', hes', rfl⟩
      · exact hnil
      · rw [Entries.keys_mapValues]
        exact hv _ _ hr hes'

/-- How going through what a value reaches breaks down: at a key of a mapping whose text has more
digits than are shown, or because it goes deeper than there is room for. -/
inductive Breaks (h : Heap) (naming : Naming) (room : Room) (v : Value) : Breakdown → Prop
  | longKey {c : CellId} {es : Entries Value} {k : Key} {n : Nat} (hr : h.Reaches v (.cell c))
      (hes : h.entries? c = some es) (hk : k ∈ es.keys) (hn : naming.digits = some n)
      (hlong : k.isLong naming = true) : Breaks h naming room v (.longNumeral n)
  | tooDeep (hd : ¬ room.Holds (h.datum v).depth) : Breaks h naming room v (.tooDeep .values)

/-- Going through what a value reads as breaks down just as going through what it reaches does. -/
theorem breaks_iff {naming : Naming} {room : Room} {v : Value} {cause : Breakdown} :
    (h.datum v).BreaksDown naming room cause ↔ h.Breaks naming room v cause := by
  have hkeys := h.allKeys_datum_iff (P := fun ks => ∀ k ∈ ks, k.isLong naming = false) (by simp) (v := v)
  rw [Datum.allKeys_iff_mapping (by simp)] at hkeys
  constructor
  · rintro (⟨hes, hk, hn, hlong⟩ | hd)
    · apply Classical.byContradiction
      intro hno
      rw [hkeys.mpr (fun c es hr hes' k hk' => ?_) _ _ hes _ hk] at hlong
      · cases hlong
      · exact Bool.eq_false_iff.mpr fun hl => hno (.longKey hr hes' hk' hn hl)
    · exact .tooDeep hd
  · rintro (⟨hr, hes, hk, hn, hlong⟩ | hd)
    · apply Classical.byContradiction
      intro hno
      rw [hkeys.mp (fun fixed es hes' k hk' => ?_) _ _ hr hes _ hk] at hlong
      · cases hlong
      · exact Bool.eq_false_iff.mpr fun hl => hno (.longKey hes' hk' hn hl)
    · exact .tooDeep hd

/-- Just what is valid reads as something acceptable. -/
theorem acceptable_datum_iff {v : Value} : (h.datum v).Acceptable ↔ h.Valid v := by
  have hnames := h.allKeys_datum_iff (P := fun ks => ∀ k ∈ ks, ∃ s, k = .text s ∧ s ≠ "")
    (by simp) (v := v)
  rw [Datum.allKeys_iff_mapping (by simp)] at hnames
  constructor
  · intro hd
    refine ⟨fun hr => hd.supported (shows_datum_of_reaches hr), fun hr hes => ?_⟩
    exact hnames.mp (fun _ _ hw => hd.named hw) _ _ hr hes
  · intro hv
    refine ⟨fun {a} ha => ?_, fun hw => hnames.mpr (fun _ _ hr hes => hv.named hr hes) _ _ hw⟩
    rcases within_read ha with ⟨c, he⟩ | ⟨b, he, hb⟩ | ⟨id, f, he, -⟩
    · cases he
    · cases he
      exact hv.supported hb
    · -- a container that is not there reads as nothing
      unfold layer at he
      split at he <;> cases he
      trivial

/-- A mapping is valid if its keys are names and what they lead to is valid. -/
theorem valid_cell_iff {c : CellId} {es : Entries Value} (hes : h.entries? c = some es) :
    h.Valid (.cell c) ↔ es.Named ∧ ∀ v ∈ es.values, h.Valid v := by
  constructor
  · intro hc
    refine ⟨hc.named (.refl _) hes, fun v hv => ?_⟩
    rw [← parts_of_entries? hes] at hv
    exact ⟨fun hr => hc.supported (.step hv hr), fun hr => hc.named (.step hv hr)⟩
  · rintro ⟨hnamed, hvalues⟩
    refine ⟨fun hr => ?_, fun {d es'} hr hes' => ?_⟩
    · rcases reaches_cell_iff.mp hr with he | ⟨v, hv, hr⟩
      · cases he
      · rw [parts_of_entries? hes] at hv
        exact (hvalues v hv).supported hr
    · rcases reaches_cell_iff.mp hr with he | ⟨v, hv, hr⟩
      · cases he
        rw [hes] at hes'
        cases hes'
        exact hnamed
      · rw [parts_of_entries? hes] at hv
        exact (hvalues v hv).named hr hes'

end Heap

/-- The value is a text that can be an identifier. -/
def Value.Names (v : Value) : Prop := ∃ s, v = .text s ∧ IsIdentifier s

namespace Workspace

variable {w : Workspace}

/-- A value is accepted just if it is valid and there is room for it. -/
theorem checkValue_eq_ok_iff {path : String} {v : Value} : w.checkValue path v = .ok () ↔
    w.heap.Valid v ∧ w.limits.checking.Holds (w.heap.datum v).depth := by
  rw [checkValue, Groundplan.checkValue_eq_ok_iff, Heap.acceptable_datum_iff]

/-- What is fit to be a property is valid. -/
theorem FitValue.valid {v : Value} (h : w.FitValue v) : w.heap.Valid v := by
  obtain ⟨path, hpath⟩ := h
  exact (checkValue_eq_ok_iff.mp hpath).1

/-- Entries are fit to be properties just if their keys are names that lead to valid values which
there is room for. -/
theorem checkProperties_eq_ok_iff {path : String} {es : Entries Value} :
    w.checkProperties path es = .ok () ↔ es.Named ∧ ∀ v ∈ es.values,
      w.heap.Valid v ∧ w.limits.checking.Holds (w.heap.datum v).depth := by
  induction es with
  | nil => simp [checkProperties, Entries.values]
  | cons e es ih =>
    obtain ⟨k, v⟩ := e
    have hvalues : Entries.values ((k, v) :: es) = v :: Entries.values es := rfl
    rw [checkProperties, Entries.named_cons, hvalues, List.forall_mem_cons,
      ← checkKey_isOk_iff w.naming path, and_and_and_comm, ← ih]
    cases checkKey w.naming path k with
    | error e => simp
    | ok key =>
      dsimp only
      have hvalue : w.checkValue (keyPath path key) v = .ok () ↔ _ := checkValue_eq_ok_iff
      rw [← hvalue]
      cases w.checkValue (keyPath path key) v <;> simp

/-- Entries that are fit to be properties have names that lead to valid values. -/
theorem Fit.valid {es : Entries Value} (h : w.Fit es) :
    es.Named ∧ ∀ v ∈ es.values, w.heap.Valid v := by
  obtain ⟨path, hpath⟩ := h
  obtain ⟨hnamed, hvalues⟩ := checkProperties_eq_ok_iff.mp hpath
  exact ⟨hnamed, fun v hv => (hvalues v hv).1⟩

section Unlimited

variable (hroom : w.limits.checking = none)
include hroom

/-- Where there is always room, a value is accepted just if it is valid. -/
theorem checkValue_eq_ok_iff_valid {path : String} {v : Value} :
    w.checkValue path v = .ok () ↔ w.heap.Valid v := by
  rw [checkValue_eq_ok_iff, hroom]
  exact and_iff_left nofun

theorem checkProperties_eq_ok_iff_valid {path : String} {es : Entries Value} :
    w.checkProperties path es = .ok () ↔ es.Named ∧ ∀ v ∈ es.values, w.heap.Valid v := by
  have hall (v : Value) : w.limits.checking.Holds (w.heap.datum v).depth := by
    rw [hroom]
    exact nofun
  simp only [checkProperties_eq_ok_iff, hall, and_true]

/-- Properties are accepted just if they are left out or a valid mapping. -/
theorem validProperties_isOk_iff {path : String} {v : Value} :
    (∃ es, w.validProperties path v = .ok es) ↔
      v.isNull = true ∨ (w.heap.entriesOf? v).isSome = true ∧ w.heap.Valid v := by
  unfold validProperties
  by_cases hnull : v.isNull = true
  · simp [hnull]
  · simp only [hnull, Bool.false_eq_true, ↓reduceIte, false_or]
    cases hes : w.heap.entriesOf? v with
    | none => simp
    | some es =>
      have hvalid : w.heap.Valid v ↔ w.checkProperties path es = .ok () := by
        cases v with
        | atom a => cases hes
        | cell c => rw [Heap.valid_cell_iff hes, checkProperties_eq_ok_iff_valid hroom]
      rw [hvalid]
      cases hcheck : w.checkProperties path es <;> simp [hcheck]

end Unlimited

/-- Just an identifier is accepted as one. -/
theorem checkIdentifier_isOk_iff {naming : Naming} {label : String} {v : Value} :
    (∃ s, checkIdentifier naming label (w.heap.datum v) = .ok s) ↔ v.Names := by
  constructor
  · rintro ⟨s, h⟩
    obtain ⟨ht, hb, hs⟩ := checkIdentifier_eq_ok h
    exact ⟨s, eq_text_of_text?_datum ht, hb, by simpa using hs⟩
  · rintro ⟨s, rfl, hb, hs⟩
    exact ⟨s, by simp [checkIdentifier, Heap.datum, Datum.text?, hb, hs]⟩

/-- A type may be left out or an identifier. -/
theorem exists_checkTypeTag_eq_ok {naming : Naming} {v : Value}
    (hv : v.isNull = true ∨ v.Names) : ∃ tag, checkTypeTag naming (w.heap.datum v) = .ok tag := by
  rcases hv with hnull | hnames
  · obtain rfl : v = .null := by
      unfold Value.isNull at hnull
      split at hnull
      · rfl
      · cases hnull
    exact ⟨none, by simp [checkTypeTag, Heap.datum]⟩
  · have hok : ∃ s, checkIdentifier naming "type tag" (w.heap.datum v) = .ok s :=
      checkIdentifier_isOk_iff.mpr hnames
    obtain ⟨s, hs⟩ := hok
    obtain ⟨t, rfl, -⟩ := hnames
    refine ⟨some s, ?_⟩
    unfold checkTypeTag
    split
    · next he => simp [Heap.datum] at he
    · rw [hs]
      rfl

end Workspace

namespace Call

/-- The identifiers and properties that a request hands over are fit for what it asks. -/
def Valid (w : Workspace) : Call → Prop
  | .createStack _ name => name.Names
  | .addConstruct _ id => id.Names
  | .addBlock _ _ typeTag id properties =>
      (typeTag.isNull = true ∨ typeTag.Names) ∧ id.Names ∧
        (properties.isNull = true ∨
          (w.heap.entriesOf? properties).isSome = true ∧ w.heap.Valid properties)
  | .addOutput _ id value description sensitive =>
      id.Names ∧ w.heap.Valid value ∧ w.heap.Valid description ∧ w.heap.Valid sensitive
  | _ => True

end Call

end Groundplan
