import Groundplan.Proofs.Workspace.Acceptance

/-!
# Checking container by container

The course of a check on the heap itself. From a value it goes down into every container but those
that it is already inside of, takes item by item and entry by entry, and ends at the first fault.
The containers that it is inside of never repeat, so each check ends, also where a container stands
inside itself, and with the same result as checking what the value reads as. What is passed over is
checked all the same, by the container that the check is inside of: a value is accepted exactly if
everything that it reaches may be a property and there is room to go down so deep. Otherwise it is
refused, or the check breaks down at a limit.
-/

namespace Groundplan.Heap

variable {h : Heap} {naming : Naming} {room : Room}

/-- What a container holds, one after the other or by keys. -/
inductive Holding where
  | items (vs : List Value)
  | entries (es : Entries Value)

/-- What a container holds; one that is not there holds nothing. -/
def holding (h : Heap) (id : CellId) : Holding :=
  match h.cells[id]? with
  | some (.list vs) | some (.tuple vs) => .items vs
  | some (.mapping es) => .entries es
  | some (.view _) => .entries ((h.entries? id).getD [])
  | none => .items []

/-! ### The course of a check -/

/-- What is to be checked: a value, or what is left of a container. -/
inductive Task where
  | value (path : String) (v : Value)
  | items (path : String) (index : Nat) (vs : List Value)
  | entries (path : String) (es : Entries Value)

/-- Checking a container is checking all that it holds. -/
def Holding.task (path : String) : Holding → Task
  | .items vs => .items path 0 vs
  | .entries es => .entries path es

/-- The check of a task, with room to go down and inside of some containers, ends in a result. -/
inductive Concludes (h : Heap) (naming : Naming) :
    Room → List CellId → Task → Except PropertyFault Unit → Prop
  | atom {room : Room} {inside : List CellId} {path : String} {a : Atom} :
      Concludes h naming room inside (.value path (.atom a)) (checkAtom path a)
  | absent {room : Room} {inside : List CellId} {path : String} {id : CellId}
      (hid : h.cells.size ≤ id) : Concludes h naming room inside (.value path (.cell id)) (.ok ())
  | full {room : Room} {inside : List CellId} {path : String} {id : CellId} {cause : Breakdown}
      (hid : id < h.cells.size) (hroom : room.enter .values = .error cause) :
      Concludes h naming room inside (.value path (.cell id)) (.error (.breakdown cause))
  | again {room inner : Room} {inside : List CellId} {path : String} {id : CellId}
      (hroom : room.enter .values = .ok inner) (hid : id ∈ inside) :
      Concludes h naming room inside (.value path (.cell id)) (.ok ())
  | container {room inner : Room} {inside : List CellId} {path : String} {id : CellId}
      {r : Except PropertyFault Unit} (hlt : id < h.cells.size)
      (hroom : room.enter .values = .ok inner) (hid : id ∉ inside)
      (hr : Concludes h naming inner (id :: inside) ((h.holding id).task path) r) :
      Concludes h naming room inside (.value path (.cell id)) r
  | noItem {room : Room} {inside : List CellId} {path : String} {index : Nat} :
      Concludes h naming room inside (.items path index []) (.ok ())
  | item {room : Room} {inside : List CellId} {path : String} {index : Nat} {v : Value}
      {vs : List Value} {r : Except PropertyFault Unit}
      (hv : Concludes h naming room inside (.value (itemPath path index) v) (.ok ()))
      (hr : Concludes h naming room inside (.items path (index + 1) vs) r) :
      Concludes h naming room inside (.items path index (v :: vs)) r
  | badItem {room : Room} {inside : List CellId} {path : String} {index : Nat} {v : Value}
      {vs : List Value} {fault : PropertyFault}
      (hv : Concludes h naming room inside (.value (itemPath path index) v) (.error fault)) :
      Concludes h naming room inside (.items path index (v :: vs)) (.error fault)
  | noEntry {room : Room} {inside : List CellId} {path : String} :
      Concludes h naming room inside (.entries path []) (.ok ())
  | entry {room : Room} {inside : List CellId} {path key : String} {k : Key} {v : Value}
      {es : Entries Value} {r : Except PropertyFault Unit} (hk : checkKey naming path k = .ok key)
      (hv : Concludes h naming room inside (.value (keyPath path key) v) (.ok ()))
      (hr : Concludes h naming room inside (.entries path es) r) :
      Concludes h naming room inside (.entries path ((k, v) :: es)) r
  | badKey {room : Room} {inside : List CellId} {path : String} {k : Key} {v : Value}
      {es : Entries Value} {fault : PropertyFault} (hk : checkKey naming path k = .error fault) :
      Concludes h naming room inside (.entries path ((k, v) :: es)) (.error fault)
  | badEntry {room : Room} {inside : List CellId} {path key : String} {k : Key} {v : Value}
      {es : Entries Value} {fault : PropertyFault} (hk : checkKey naming path k = .ok key)
      (hv : Concludes h naming room inside (.value (keyPath path key) v) (.error fault)) :
      Concludes h naming room inside (.entries path ((k, v) :: es)) (.error fault)

section Reading

variable {inside : List CellId} {f : Value → Datum}

private theorem concludes_items {vs : List Value}
    (hvs : ∀ v ∈ vs, ∀ path,
      h.Concludes naming room inside (.value path v) (checkValue naming room path (f v)))
    (path : String) (index : Nat) :
    h.Concludes naming room inside (.items path index vs)
      (checkItems naming room path index (vs.map f)) := by
  induction vs generalizing index with
  | nil => exact .noItem
  | cons v vs ih =>
    obtain ⟨hv, hvs⟩ := List.forall_mem_cons.mp hvs
    have hfirst := hv (itemPath path index)
    rw [List.map_cons, checkItems]
    cases hresult : checkValue naming room (itemPath path index) (f v) with
    | ok =>
      rw [hresult] at hfirst
      exact .item hfirst (ih hvs (index + 1))
    | error fault =>
      rw [hresult] at hfirst
      exact .badItem hfirst

private theorem concludes_entries {es : Entries Value}
    (hes : ∀ v ∈ es.values, ∀ path,
      h.Concludes naming room inside (.value path v) (checkValue naming room path (f v)))
    (path : String) :
    h.Concludes naming room inside (.entries path es)
      (checkEntries naming room path (Entries.mapValues f es)) := by
  induction es with
  | nil => exact .noEntry
  | cons e es ih =>
    obtain ⟨k, v⟩ := e
    obtain ⟨hv, hes⟩ := List.forall_mem_cons.mp hes
    show Concludes h naming room inside _
      (checkEntries naming room path ((k, f v) :: Entries.mapValues f es))
    rw [checkEntries]
    cases hk : checkKey naming path k with
    | error fault => exact .badKey hk
    | ok key =>
      have hfirst := hv (keyPath path key)
      dsimp only
      cases hresult : checkValue naming room (keyPath path key) (f v) with
      | ok =>
        rw [hresult] at hfirst
        exact .entry hk hfirst (ih hes)
      | error fault =>
        rw [hresult] at hfirst
        exact .badEntry hk hfirst

/-- If checking each part of a container, with the room inside it, ends as checking what it becomes,
so does checking the container. -/
private theorem concludes_layer {id : CellId} (hlt : id < h.cells.size) (hid : id ∉ inside)
    (hparts : ∀ inner : Room, ∀ v ∈ h.parts id, ∀ path,
      h.Concludes naming inner (id :: inside) (.value path v) (checkValue naming inner path (f v)))
    (room : Room) (path : String) :
    h.Concludes naming room inside (.value path (.cell id))
      (checkValue naming room path (h.layer id f)) := by
  have hcell : h.cells[id]? = some h.cells[id] := Array.getElem?_eq_getElem hlt
  have hcontainer {inner : Room} (hroom : room.enter .values = .ok inner)
      {r : Except PropertyFault Unit}
      (hr : h.Concludes naming inner (id :: inside) ((h.holding id).task path) r) :=
    Concludes.container hlt hroom hid hr
  unfold parts at hparts
  unfold holding at hcontainer
  unfold layer
  rw [hcell] at hparts hcontainer ⊢
  cases hroom : room.enter .values with
  | error cause =>
    cases h.cells[id] <;>
    · dsimp only
      rw [checkValue, hroom]
      exact .full hlt hroom
  | ok inner =>
    generalize h.cells[id] = cell at hparts hcontainer ⊢
    cases cell with
    | list vs | tuple vs =>
      dsimp only
      rw [checkValue, hroom]
      exact hcontainer hroom (concludes_items (hparts inner) path 0)
    | mapping es | view base =>
      dsimp only
      rw [checkValue, hroom]
      exact hcontainer hroom (concludes_entries (hparts inner) path)

end Reading

/-- On its way, a check ends in the result of checking what is read there. -/
theorem OnPath.concludes {fuel : Nat} {inside : List CellId} {v : Value}
    (hp : OnPath h fuel inside v) (naming : Naming) (room : Room) (path : String) :
    h.Concludes naming room inside (.value path v)
      (checkValue naming room path (h.read fuel inside v)) := by
  -- The fuel is what is left of the containers once those that the check is inside of are taken away.
  induction fuel generalizing inside v room path with
  | zero => exact absurd rfl hp.fuel_ne_zero
  | succ fuel ih =>
    cases v with
    | atom a =>
      rw [read_atom, checkValue]
      exact .atom
    | cell id =>
      rw [read_cell_succ]
      by_cases hid : id ∈ inside
      · rw [if_pos hid, checkValue]
        cases hroom : room.enter .values with
        | ok inner => exact .again hroom hid
        | error cause => exact .full (hp.bound id hid) hroom
      · rw [if_neg hid]
        by_cases hlt : id < h.cells.size
        · exact concludes_layer hlt hid
            (fun inner v hv path => ih (hp.down hid hv) inner path) room path
        · have hlayer : h.layer id (h.read fuel (id :: inside)) = .null := by
            rw [layer, Array.getElem?_eq_none (Nat.not_lt.mp hlt)]
          rw [hlayer]
          exact .absent (Nat.not_lt.mp hlt)

/-- A check ends in one result only. -/
theorem Concludes.unique {inside : List CellId} {task : Task} {r r' : Except PropertyFault Unit}
    (hr : h.Concludes naming room inside task r) (hr' : h.Concludes naming room inside task r') :
    r = r' := by
  induction hr generalizing r' with
  | atom =>
    cases hr'
    rfl
  | absent hid =>
    cases hr' with
    | absent | again => rfl
    | full hid' | container hid' => exact absurd hid' (Nat.not_lt.mpr hid)
  | full hid hroom =>
    cases hr' with
    | absent hid' => exact absurd hid (Nat.not_lt.mpr hid')
    | full _ hroom' => exact congrArg _ (congrArg _ (Except.error.inj (hroom.symm.trans hroom')))
    | again hroom' => cases hroom.symm.trans hroom'
    | container _ hroom' => cases hroom.symm.trans hroom'
  | again hroom hid =>
    cases hr' with
    | absent | again => rfl
    | full _ hroom' => cases hroom.symm.trans hroom'
    | container _ _ hid' => exact absurd hid hid'
  | container hlt hroom hid _ ih =>
    cases hr' with
    | absent hid' => exact absurd hlt (Nat.not_lt.mpr hid')
    | full _ hroom' => cases hroom.symm.trans hroom'
    | again _ hid' => exact absurd hid' hid
    | container _ hroom' _ hr' =>
      cases hroom.symm.trans hroom'
      exact ih hr'
  | noItem =>
    cases hr'
    rfl
  | item _ _ ihv ihr =>
    cases hr' with
    | item _ hr' => exact ihr hr'
    | badItem hv' => cases ihv hv'
  | badItem _ ih =>
    cases hr' with
    | item hv' _ => cases ih hv'
    | badItem hv' => exact ih hv'
  | noEntry =>
    cases hr'
    rfl
  | entry hk _ _ ihv ihr =>
    cases hr' with
    | entry _ _ hr' => exact ihr hr'
    | badKey hk' => cases hk.symm.trans hk'
    | badEntry hk' hv' =>
      cases hk.symm.trans hk'
      cases ihv hv'
  | badKey hk =>
    cases hr' with
    | entry hk' => cases hk.symm.trans hk'
    | badKey hk' => exact congrArg _ (Except.error.inj (hk.symm.trans hk'))
    | badEntry hk' => cases hk.symm.trans hk'
  | badEntry hk _ ih =>
    cases hr' with
    | entry hk' hv' =>
      cases hk.symm.trans hk'
      cases ih hv'
    | badKey hk' => cases hk.symm.trans hk'
    | badEntry hk' hv' =>
      cases hk.symm.trans hk'
      exact ih hv'

/-! ### Where a check finds a fault -/

/-- Going down from a value at a path leads to another at another path. -/
inductive Leads (h : Heap) : String → Value → String → Value → Prop
  | refl (path : String) (v : Value) : Leads h path v path v
  | item {path path' : String} {id : CellId} {vs : List Value} {index : Nat} {v u : Value}
      (hid : h.holding id = .items vs) (hv : vs[index]? = some v)
      (hu : Leads h (itemPath path index) v path' u) : Leads h path (.cell id) path' u
  | entry {path path' key : String} {id : CellId} {es : Entries Value} {v u : Value}
      (hid : h.holding id = .entries es) (hv : (.text key, v) ∈ es)
      (hu : Leads h (keyPath path key) v path' u) : Leads h path (.cell id) path' u

/-- The fault of a value at a path: a number that is not finite, an atom of another kind than a
property may be, or a mapping with a key that is no name. -/
inductive Faulty (h : Heap) (naming : Naming) (path : String) : Value → PropertyFault → Prop
  | notFinite {x : Binary64} (hx : x.isFinite = false) :
      Faulty h naming path (.atom (.scalar (.float x))) (.notFinite path x.text)
  | unsupported {a : Atom} (hscalar : ∀ s, a ≠ .scalar s) (hreference : ∀ r, a ≠ .reference r) :
      Faulty h naming path (.atom a) (.unsupported path a.typeName)
  | badKey {id : CellId} {es : Entries Value} {k : Key} (hid : h.holding id = .entries es)
      (hk : k ∈ es.keys) (hname : ¬ ∃ s, k = .text s ∧ s ≠ "") :
      Faulty h naming path (.cell id) (.badKey (k.display naming) path)

/-- Going down leads to a value with a fault. -/
def Finds (h : Heap) (naming : Naming) (path : String) (v : Value) (fault : PropertyFault) : Prop :=
  ∃ path' u, h.Leads path v path' u ∧ h.Faulty naming path' u fault

private theorem faulty_of_checkAtom {path : String} {a : Atom} {fault : PropertyFault}
    (hfault : checkAtom path a = .error fault) : h.Faulty naming path (.atom a) fault := by
  unfold checkAtom at hfault
  split at hfault
  · split at hfault
    · cases hfault
    · next hx =>
      cases hfault
      exact .notFinite (Bool.eq_false_iff.mpr hx)
  · cases hfault
  · cases hfault
  · next hscalar hreference =>
    cases hfault
    exact .unsupported hscalar hreference

private theorem not_name_of_checkKey {path : String} {k : Key} {fault : PropertyFault}
    (hfault : checkKey naming path k = .error fault) :
    (¬ ∃ s, k = .text s ∧ s ≠ "") ∧ fault = badKey path (k.shown naming) := by
  constructor
  · rintro ⟨s, rfl, hs⟩
    simp [checkKey, hs] at hfault
  · unfold checkKey at hfault
    split at hfault
    · split at hfault
      · cases hfault
        rfl
      · cases hfault
    · cases hfault
      rfl

/-- What the fault of a task is about. -/
private def Task.Blames (h : Heap) (naming : Naming) (fault : PropertyFault) : Task → Prop
  | .value path v => h.Finds naming path v fault
  | .items path index vs =>
      ∃ i v, vs[i]? = some v ∧ h.Finds naming (itemPath path (index + i)) v fault
  | .entries path es =>
      (∃ k ∈ es.keys, (¬ ∃ s, k = .text s ∧ s ≠ "") ∧ fault = .badKey (k.display naming) path) ∨
        ∃ key v, (.text key, v) ∈ es ∧ h.Finds naming (keyPath path key) v fault

private theorem Task.Blames.container {path : String} {id : CellId} {fault : PropertyFault}
    (hb : Task.Blames h naming fault ((h.holding id).task path)) :
    h.Finds naming path (.cell id) fault := by
  cases hid : h.holding id with
  | items vs =>
    rw [hid] at hb
    obtain ⟨i, v, hv, path', u, hleads, hfaulty⟩ := hb
    rw [Nat.zero_add] at hleads
    exact ⟨path', u, .item hid hv hleads, hfaulty⟩
  | entries es =>
    rw [hid] at hb
    rcases hb with ⟨k, hk, hname, rfl⟩ | ⟨key, v, hv, path', u, hleads, hfaulty⟩
    · exact ⟨path, .cell id, .refl _ _, .badKey hid hk hname⟩
    · exact ⟨path', u, .entry hid hv hleads, hfaulty⟩

/-- A check that ends in a fault and does not break down blames something that it was led to. -/
private theorem Concludes.blames {inside : List CellId} {task : Task} {fault : PropertyFault}
    (hbreaks : ∀ cause, fault ≠ .breakdown cause)
    (hr : h.Concludes naming room inside task (.error fault)) : Task.Blames h naming fault task := by
  generalize hresult : Except.error fault = r at hr
  induction hr with
  | atom => exact ⟨_, _, .refl _ _, faulty_of_checkAtom hresult.symm⟩
  | absent | again | noItem | noEntry => cases hresult
  | full =>
    cases hresult
    exact absurd rfl (hbreaks _)
  | container _ _ _ _ ih => exact (ih hresult).container
  | item _ _ _ ih =>
    obtain ⟨i, v, hv, hfinds⟩ := ih hresult
    refine ⟨i + 1, v, hv, ?_⟩
    rwa [Nat.add_assoc, Nat.add_comm 1 i] at hfinds
  | badItem _ ih => exact ⟨0, _, rfl, ih hresult⟩
  | entry _ _ _ _ ih =>
    rcases ih hresult with ⟨k, hk, hbad⟩ | ⟨key, v, hv, hfinds⟩
    · exact .inl ⟨k, List.mem_cons_of_mem _ hk, hbad⟩
    · exact .inr ⟨key, v, List.mem_cons_of_mem _ hv, hfinds⟩
  | @badKey _ _ path k _ _ _ hk =>
    cases hresult
    obtain ⟨hname, rfl⟩ := not_name_of_checkKey hk
    cases hshown : k.shown naming with
    | ok shown =>
      obtain rfl := Naming.shown_eq_ok hshown
      exact .inl ⟨k, List.mem_cons_self, hname, rfl⟩
    | error cause =>
      rw [hshown] at hbreaks
      exact absurd rfl (hbreaks cause)
  | badEntry hk _ ih =>
    obtain ⟨rfl, -⟩ := Workspace.checkKey_eq_ok hk
    exact .inr ⟨_, _, List.mem_cons_self, ih hresult⟩

/-! ### Exactness -/

/-- Whatever containers are shared or stand inside themselves, the check of a value ends, in one
result, which is that of checking what the value reads as. It is accepted exactly if all leaves that
it reaches are supported, the keys of all mappings that it reaches are names and it is no deeper
than there is room for. Otherwise the fault is one of a value that going down leads to, at the path
of that value, or the check broke down: at a key with too many digits, or for want of room. -/
theorem checkValue_exact (h : Heap) (naming : Naming) (room : Room) (path : String) (v : Value) :
    (∀ r, h.Concludes naming room [] (.value path v) r ↔
        checkValue naming room path (h.datum v) = r) ∧
      (checkValue naming room path (h.datum v) = .ok () ↔
        h.Valid v ∧ room.Holds (h.datum v).depth) ∧
      ∀ fault, checkValue naming room path (h.datum v) = .error fault →
        h.Finds naming path v fault ∨
          ∃ cause, fault = .breakdown cause ∧ h.Breaks naming room v cause := by
  have hends : h.Concludes naming room [] (.value path v) (checkValue naming room path (h.datum v)) :=
    (onPath_start v).concludes naming room path
  refine ⟨fun r => ⟨hends.unique, fun hr => hr ▸ hends⟩, ?_, fun fault hfault => ?_⟩
  · rw [checkValue_eq_ok_iff, acceptable_datum_iff]
  · by_cases hbreaks : ∃ cause, fault = .breakdown cause
    · obtain ⟨cause, rfl⟩ := hbreaks
      exact .inr ⟨cause, rfl, breaks_iff.mp (breaksDown_of_checkValue hfault)⟩
    · rw [hfault] at hends
      exact .inl (hends.blames (not_exists.mp hbreaks))

/-- A list that holds itself before a mapping, which in turn holds the list and, last, bytes. -/
def tangledHeap : Heap where
  cells := #[.list [.cell 0, .cell 1],
    .mapping [(.text "all", .cell 0), (.text "raw", .atom (.bytes [0]))]]

/-- What comes after a container that stands inside itself is not hidden by it. -/
theorem checkValue_exact_tangled :
    tangledHeap.SelfContaining 0 ∧
      checkValue .bare none "stack/x" (tangledHeap.datum (.cell 0)) =
        .error (.unsupported "stack/x[1].raw" "bytes") ∧
      tangledHeap.Concludes .bare none [] (.value "stack/x" (.cell 0))
        (.error (.unsupported "stack/x[1].raw" "bytes")) ∧
      ¬ tangledHeap.Valid (.cell 0) ∧
      tangledHeap.Finds .bare "stack/x" (.cell 0) (.unsupported "stack/x[1].raw" "bytes") := by
  have hfault : checkValue .bare none "stack/x" (tangledHeap.datum (.cell 0)) =
      .error (.unsupported "stack/x[1].raw" "bytes") := by rfl
  obtain ⟨hends, hvalid, hfinds⟩ := checkValue_exact tangledHeap .bare none "stack/x" (.cell 0)
  refine ⟨⟨.cell 0, List.mem_cons_self, .refl _⟩, hfault, (hends _).mpr hfault, fun h => ?_, ?_⟩
  · cases hfault.symm.trans (hvalid.mpr ⟨h, nofun⟩)
  · rcases hfinds _ hfault with hfinds | ⟨cause, he, -⟩
    · exact hfinds
    · cases he

/-! ### Beyond the limits -/

/-- A list of a tower: the lowest is empty, and each other one holds the one below it. -/
def floor : Nat → Cell
  | 0 => .list []
  | n + 1 => .list [.cell n]

/-- Lists that stand one inside the other, so many beside the lowest. -/
def tower (n : Nat) : Heap where
  cells := (Array.range (n + 1)).map floor

/-- What the lists of a tower read as, each by its place. -/
def towerDatum : Nat → Datum
  | 0 => .list []
  | n + 1 => .list [towerDatum n]

private theorem read_tower {n place : Nat} (hplace : place ≤ n) {inside : List CellId}
    (hinside : ∀ id ∈ inside, place < id) {fuel : Nat} (hfuel : place < fuel) :
    (tower n).read fuel inside (.cell place) = towerDatum place := by
  induction place generalizing inside fuel with
  | zero =>
    obtain ⟨fuel, rfl⟩ := Nat.exists_eq_add_one_of_ne_zero (Nat.ne_of_gt hfuel)
    have hnew : 0 ∉ inside := fun h => Nat.lt_irrefl 0 (hinside 0 h)
    simp [read, tower, floor, towerDatum, hnew]
  | succ place ih =>
    obtain ⟨fuel, rfl⟩ := Nat.exists_eq_add_one_of_ne_zero (Nat.ne_zero_of_lt hfuel)
    have hnew : place + 1 ∉ inside := fun h => Nat.lt_irrefl _ (hinside _ h)
    have hbelow : ∀ id ∈ (place + 1) :: inside, place < id := by
      intro id hid
      rcases List.mem_cons.mp hid with rfl | hid
      · exact Nat.lt_succ_self place
      · exact Nat.lt_of_succ_lt (hinside id hid)
    have hread := ih (Nat.le_of_succ_le hplace) hbelow (Nat.lt_of_succ_lt_succ hfuel)
    simp [read, tower, floor, towerDatum, hnew, Nat.lt_succ_of_le hplace]
    exact hread

/-- The lists of a tower read as what they are. -/
theorem datum_tower (n : Nat) : (tower n).datum (.cell n) = towerDatum n := by
  have hsize : (tower n).cells.size = n + 1 := by simp [tower]
  rw [datum, hsize]
  exact read_tower (Nat.le_refl n) (by simp) (by omega)

/-- A tower is checked through where there is always room. -/
theorem checkValue_towerDatum_none (naming : Naming) (path : String) (n : Nat) :
    checkValue naming none path (towerDatum n) = .ok () := by
  induction n generalizing path with
  | zero => rfl
  | succ n ih => simp [towerDatum, checkValue, checkItems, ih]

/-- The lists of a tower are one more than there is room for. -/
theorem checkValue_towerDatum (naming : Naming) (path : String) (n : Nat) :
    checkValue naming (some n) path (towerDatum n) = .error (.breakdown (.tooDeep .values)) := by
  induction n generalizing path with
  | zero => rfl
  | succ n ih => simp [towerDatum, checkValue, checkItems, Room.enter, ih]

/-- A valid value that is deeper than there is room for. -/
theorem valid_tower (n : Nat) : (tower n).Valid (.cell n) := by
  rw [← acceptable_datum_iff, datum_tower]
  exact ((checkValue_eq_ok_iff .bare none "" ).mp (checkValue_towerDatum_none .bare "" n)).1

/-- A mapping with a key of very many digits. -/
def numberedHeap : Heap where
  cells := #[.mapping [(.scalar (.int Limits.longInt), .text "a")]]

/-- Under the usual limits a valid value is refused for its depth; and a mapping with a key that is no
name is not said to have one, where the key has too many digits to be shown. -/
theorem checkValue_breaksDown :
    ((tower 950).Valid (.cell 950) ∧
      checkValue .bare Limits.usual.checking "x" ((tower 950).datum (.cell 950)) =
        .error (.breakdown (.tooDeep .values))) ∧
      ¬ numberedHeap.Valid (.cell 0) ∧
      checkValue { Naming.bare with digits := Limits.usual.digits } none "x"
          (numberedHeap.datum (.cell 0)) = .error (.breakdown (.longNumeral Text.digitLimit)) := by
  refine ⟨⟨valid_tower 950, ?_⟩, ?_, ?_⟩
  · rw [datum_tower]
    exact checkValue_towerDatum .bare "x" 950
  · intro h
    have hnamed : Entries.Named [(Key.scalar (.int Limits.longInt), Value.text "a")] :=
      h.named (.refl _) (entries?_of_mapping rfl)
    obtain ⟨s, hs, -⟩ := hnamed _ List.mem_cons_self
    cases hs
  · have hshown : (Key.scalar (.int Limits.longInt)).shown
        { Naming.bare with digits := Limits.usual.digits } = .error (.longNumeral Text.digitLimit) :=
      Naming.shown_eq_error.mpr ⟨_, rfl, by decide +kernel, rfl⟩
    have hdatum : numberedHeap.datum (.cell 0) =
        .mapping false [(.scalar (.int Limits.longInt), .text "a")] := rfl
    rw [hdatum]
    simp [checkValue, checkEntries, checkKey, badKey, hshown]

end Groundplan.Heap
