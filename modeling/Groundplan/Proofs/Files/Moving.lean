import Groundplan.Proofs.Files.Following
import Mathlib.Data.List.Find

/-!
# Moving files

A file that is moved is found in its new place and no longer in its old one, and what stands in
other places stays there. Bytes that are added to a file come after what it held. A path that spells
names leads to the same place as long as the directories before its last name stay.
-/

namespace Groundplan.FileTree

variable {t t' : FileTree} {env : Environment} {path : String} {place other source target : List String}

/-! ### What stands in a place -/

/-- The bytes of the file that stands in a place; none if there is no file. -/
def bytesAt (t : FileTree) (place : List String) : List UInt8 :=
  match t.find? place with
  | some (.file bytes) => bytes
  | _ => []

theorem bytesAt_of_find? {bytes : List UInt8} (h : t.find? place = some (.file bytes)) :
    t.bytesAt place = bytes := by
  rw [bytesAt, h]

theorem bytesAt_of_none (h : t.find? place = none) : t.bytesAt place = [] := by
  rw [bytesAt, h]

theorem bytesAt_congr (h : t'.find? place = t.find? place) : t'.bytesAt place = t.bytesAt place := by
  rw [bytesAt, h, bytesAt]

/-- Nothing is found in a place that was cleared. -/
theorem find?_erase (t : FileTree) (h : place ≠ []) : (t.erase place).find? place = none := by
  rw [find?, if_neg (by simpa using h), erase, Option.map_eq_none_iff, List.find?_eq_none]
  intro e he
  simpa using (List.mem_filter.mp he).2

/-- Clearing one place leaves the others as they were. -/
theorem find?_erase_of_ne (t : FileTree) (h : other ≠ place) :
    (t.erase place).find? other = t.find? other := by
  unfold find? erase
  split
  · rfl
  · rw [List.find?_filter]
    congr 1
    refine List.find?_congr fun e _ => ?_
    by_cases he : e.1 = other <;> simp [he, h]

/-- Where an entry stands after a move. -/
private def moved (source target place : List String) : List String :=
  if source.isPrefixOf place then target ++ place.drop source.length else place

private theorem moved_of_not_starts (h : ¬ source <+: place) : moved source target place = place := by
  rw [moved, if_neg (by simpa using h)]

private theorem relocate_eq (t : FileTree) (source target : List String) :
    t.relocate source target = ⟨t.entries.map fun e => (moved source target e.1, e.2)⟩ := by
  unfold relocate
  congr 1
  refine List.map_congr_left fun e _ => ?_
  obtain ⟨place, entry⟩ := e
  dsimp only [moved]
  split <;> rfl

/-- What is found in a place after a move is what is found where it stood. -/
private theorem find?_relocate (t : FileTree) (hplace : place ≠ []) (hother : other ≠ [])
    (h : ∀ e ∈ t.entries, moved source target e.1 = place ↔ e.1 = other) :
    (t.relocate source target).find? place = t.find? other := by
  rw [find?, if_neg (by simpa using hplace), find?, if_neg (by simpa using hother), relocate_eq,
    List.find?_map, Option.map_map]
  have hfind : t.entries.find? ((fun e => decide (e.1 = place)) ∘
      fun e => (moved source target e.1, e.2)) =
        t.entries.find? fun e => decide (e.1 = other) := by
    refine List.find?_congr fun e he => ?_
    rw [Function.comp_apply, decide_eq_decide]
    exact h e he
  rw [hfind]
  rfl

/-- Nothing is found where it stood before a move. -/
theorem find?_relocate_source (t : FileTree) (hne : source ≠ [])
    (hlength : target.length = source.length)
    (hdiffer : source ≠ target) : (t.relocate source target).find? source = none := by
  rw [find?, if_neg (by simpa using hne), relocate, Option.map_eq_none_iff, List.find?_eq_none]
  intro e he
  obtain ⟨⟨place, entry⟩, -, rfl⟩ := List.mem_map.mp he
  dsimp only
  split
  · have hsource : target ++ place.drop source.length ≠ source := by
      intro h
      have hstarts : target <+: source := ⟨_, h⟩
      exact hdiffer (hstarts.eq_of_length hlength).symm
    simpa using hsource
  · next hstarts =>
    have hsource : place ≠ source := by
      rintro rfl
      simp at hstarts
    simpa using hsource

/-- What stood in one place is found in the place that it was moved to, if that was free. -/
theorem find?_relocate_target (t : FileTree) (hsource : source ≠ []) (htarget : target ≠ [])
    (hfree : t.find? target = none) : (t.relocate source target).find? target = t.find? source := by
  refine find?_relocate t htarget hsource fun e he => ?_
  by_cases hstarts : source <+: e.1
  · rw [moved, if_pos (by simpa using hstarts)]
    obtain ⟨rest, hrest⟩ := hstarts
    simp [← hrest]
  · rw [moved_of_not_starts hstarts]
    rw [find?, if_neg (by simpa using htarget), Option.map_eq_none_iff, List.find?_eq_none] at hfree
    have htaken : e.1 ≠ target := by simpa using hfree e he
    refine iff_of_false htaken ?_
    rintro rfl
    exact hstarts (List.prefix_refl _)

/-- A move leaves what is beside both of its places as it was. -/
theorem find?_relocate_of_not_starts (t : FileTree) (hsource : ¬ source <+: place)
    (htarget : ¬ target <+: place) : (t.relocate source target).find? place = t.find? place := by
  by_cases hplace : place = []
  · rw [hplace]
    rfl
  · refine find?_relocate t hplace hplace fun e _ => ?_
    by_cases hstarts : source <+: e.1
    · rw [moved, if_pos (by simpa using hstarts)]
      refine iff_of_false ?_ ?_
      · rintro rfl
        exact htarget (List.prefix_append _ _)
      · rintro rfl
        exact hsource hstarts
    · rw [moved_of_not_starts hstarts]

/-! ### Where paths lead -/

/-- The first of names leads to a directory, or nowhere. -/
private theorem descend_cons {name : String} (h : Path.IsName name) (names : List String) :
    t.descend place (name :: names) =
      if isLongName name then .error .nameTooLong
      else
        match t.find? (place ++ [name]) with
        | none => .error .notFound
        | some (.file _) => .error .notDirectory
        | some .directory => t.descend (place ++ [name]) names := by
  rw [descend]
  exact (if_neg (by simp [h.ne_empty, h.ne_dot])).trans (if_neg (by simp [h.ne_dots]))

/-- The way through names depends only on what stands in the places that they lead through. -/
theorem descend_congr {names : List String} (hnames : ∀ name ∈ names, Path.IsName name)
    (h : ∀ before, before <+: names → t'.find? (place ++ before) = t.find? (place ++ before)) :
    t'.descend place names = t.descend place names := by
  induction names generalizing place with
  | nil => rfl
  | cons name names ih =>
    obtain ⟨hname, hnames⟩ := List.forall_mem_cons.mp hnames
    have hrest : t'.descend (place ++ [name]) names = t.descend (place ++ [name]) names := by
      refine ih hnames fun before hbefore => ?_
      rw [List.append_assoc, List.singleton_append]
      exact h _ (List.prefix_cons_inj name |>.mpr hbefore)
    rw [descend_cons hname, descend_cons hname, h [name] (by simp), hrest]

/-- A path that spells names leads to the same place as long as what stands before its last name
stays. -/
theorem follow_congr {before : List String} {last : String} (hs : Path.Spells path (before ++ [last]))
    (h : ∀ place, place <+: before → t'.find? place = t.find? place) :
    t'.follow env path = t.follow env path := by
  have hnames : ∀ name ∈ before, Path.IsName name := fun name hname =>
    hs.isName name (List.mem_append_left _ hname)
  rw [follow, follow, locate, locate, approach_of_spells hs, approach_of_spells hs,
    descend_congr hnames h]

/-- A path that need not mean a directory has no slashes after it. -/
theorem isSlashed_of_follow (h : t.follow env path = .ok (place, false)) :
    t.isSlashed env path = false := by
  obtain ⟨-, hlocate⟩ := follow_eq_ok.mp h
  rw [locate] at hlocate
  obtain ⟨⟨directory, last, slashed⟩, happroach, hrest⟩ := bind_eq_ok.mp hlocate
  rw [isSlashed, happroach]
  cases last with
  | none => cases hrest
  | some last =>
    dsimp only at hrest ⊢
    split at hrest
    · cases hrest
    · split at hrest
      · cases hrest
      · split at hrest
        · cases hrest
        · cases hrest
          rfl

/-- A file may be written where a path leads that need not mean a directory, if none is there. -/
theorem writable_of_follow (h : t.follow env path = .ok (place, false))
    (hfree : t.find? place ≠ some .directory) : t.writable env path = .ok place := by
  unfold writable
  rw [isSlashed_of_follow h, Bool.and_false]
  refine bind_eq_ok.mpr ⟨_, h, ?_⟩
  dsimp only
  split
  · next hd => exact absurd hd hfree
  · rfl

/-- What a path leads to that need not mean a directory is what stands there. -/
theorem lookup_of_follow (h : t.follow env path = .ok (place, false)) :
    t.lookup env path = t.find? place := by
  rw [lookup, h]
  cases hfind : t.find? place with
  | none => simp [hfind]
  | some e => cases e <;> simp [hfind]

/-- The size of a file is that of the bytes that stand where its path leads. -/
theorem fileSize_of_follow (h : t.follow env path = .ok (place, false)) :
    t.fileSize env path = (t.bytesAt place).length := by
  rw [fileSize, readBytes, h, bytesAt]
  simp only [bind, Except.bind]
  cases hfind : t.find? place with
  | none => rfl
  | some e => cases e <;> rfl

/-- Adding bytes to a file is writing those that are there and then these. -/
theorem appendBytes_of_writable (h : t.writable env path = .ok place) (bytes : List UInt8) :
    t.appendBytes env path bytes = .ok (t.put place (.file (t.bytesAt place ++ bytes))) ∧
      t.writeBytes env path (t.bytesAt place ++ bytes) =
        .ok (t.put place (.file (t.bytesAt place ++ bytes))) := by
  obtain ⟨-, -, hfree⟩ := writable_eq_ok h
  refine ⟨bind_eq_ok.mpr ⟨place, h, ?_⟩, bind_eq_ok.mpr ⟨place, h, rfl⟩⟩
  unfold bytesAt
  cases hfind : t.find? place with
  | none => rfl
  | some e =>
    cases e with
    | directory => exact absurd hfind hfree
    | file before => rfl

/-- Bytes can be added only where they can be written. -/
theorem writable_of_appendBytes {bytes : List UInt8} (h : t.appendBytes env path bytes = .ok t') :
    ∃ place, t.writable env path = .ok place := by
  obtain ⟨place, hplace, -⟩ := bind_eq_ok.mp h
  exact ⟨place, hplace⟩

end Groundplan.FileTree
