import Groundplan.Datum.Display
import Groundplan.Proofs.Datum.Parts

/-!
# Limits on data

What limits mean for a datum that is gone through container by container: it breaks down where the
text of a key has an integer that is not shown, and where the datum is deeper than there is room
for. Without limits nothing breaks down.
-/

namespace Groundplan

namespace Room

variable {descent : Descent} {room inner : Room} {cause : Breakdown}

/-- There is room for so many containers one inside the other. -/
def Holds (room : Room) (depth : Nat) : Prop := ∀ n, room = some n → depth ≤ n

/-- There is room for any depth where there is no end to it. -/
theorem holds_none (depth : Nat) : Room.Holds none depth := nofun

theorem allows_iff {depth : Nat} : room.allows depth = true ↔ room.Holds depth := by
  cases room <;> simp [allows, Holds]

/-- Where no container can be entered, there is no room for any. -/
theorem enter_eq_error :
    room.enter descent = .error cause ↔ room = some 0 ∧ cause = .tooDeep descent := by
  unfold enter
  split <;> simp [eq_comm]

/-- Inside a container there is room for one less. -/
theorem holds_succ_iff (h : room.enter descent = .ok inner) (depth : Nat) :
    room.Holds (depth + 1) ↔ inner.Holds depth := by
  unfold enter at h
  split at h
  · cases h
    simp [Holds]
  · cases h
  · cases h
    simp [Holds]

/-- No container finds room where none can be entered. -/
theorem not_holds_succ (h : room.enter descent = .error cause) (depth : Nat) :
    ¬ room.Holds (depth + 1) := by
  obtain ⟨rfl, -⟩ := enter_eq_error.mp h
  simp [Holds]

/-- A container that there is room for can be entered, and what is in it finds room there. -/
theorem exists_enter (descent : Descent) {depth : Nat} (h : room.Holds (depth + 1)) :
    ∃ inner, room.enter descent = .ok inner ∧ inner.Holds depth := by
  cases henter : room.enter descent with
  | ok inner => exact ⟨inner, rfl, (holds_succ_iff henter depth).mp h⟩
  | error cause => exact absurd h (not_holds_succ henter depth)

end Room

/-- The least integer with more digits than are usually shown. -/
def Limits.longInt : Int := Int.ofNat (Nat.pow 10 Text.digitLimit)

namespace Naming

variable {naming : Naming} {isLong : Bool} {text shown : String} {cause : Breakdown}

/-- A text that is made is the one that was to be made. -/
theorem shown_eq_ok (h : naming.shown isLong text = .ok shown) : shown = text := by
  unfold Naming.shown at h
  split at h
  · split at h
    · cases h
    · exact (Except.ok.inj h).symm
  · exact (Except.ok.inj h).symm

/-- A text is not made just where an integer in it has more digits than are shown. -/
theorem shown_eq_error : naming.shown isLong text = .error cause ↔
    ∃ n, naming.digits = some n ∧ isLong = true ∧ cause = .longNumeral n := by
  unfold Naming.shown
  split
  · next n hn =>
    rw [hn]
    cases isLong <;> simp [eq_comm]
  · next hn => simp [hn]

/-- Every text is made where no number of digits is too many. -/
theorem shown_of_digits_eq_none (h : naming.digits = none) (isLong : Bool) (text : String) :
    naming.shown isLong text = .ok text := by
  rw [Naming.shown, h]

end Naming

namespace Key

variable {naming : Naming} {k : Key} {shown : String} {cause : Breakdown}

/-- The text of a key can be made. -/
def Shows (naming : Naming) (k : Key) : Prop := naming.digits.isSome = true → k.isLong naming = false

theorem shows_of_shownPlain (h : k.shownPlain naming = .ok shown) : k.Shows naming := by
  intro hdigits
  cases hlong : k.isLong naming with
  | false => rfl
  | true =>
    obtain ⟨n, hn⟩ := Option.isSome_iff_exists.mp hdigits
    rw [Key.shownPlain, Naming.shown_eq_error.mpr ⟨n, hn, hlong, rfl⟩] at h
    cases h

end Key

namespace Datum

variable {naming : Naming} {room inner : Room} {cause : Breakdown} {fixed : Bool} {d : Datum}
  {items : List Datum} {es : Entries Datum}

/-- There is room for the deepest of items if there is for each of them. -/
theorem holds_depthOfItems_iff : room.Holds (depthOfItems items) ↔ ∀ d ∈ items, room.Holds d.depth := by
  simp only [Room.Holds, depthOfItems_le_iff]
  exact ⟨fun h d hd n hn => h n hn d hd, fun h n hn d hd => h d hd n hn⟩

/-- There is room for the deepest that keys lead to if there is for each of it. -/
theorem holds_depthOfEntries_iff : room.Holds (depthOfEntries es) ↔ ∀ e ∈ es, room.Holds e.2.depth := by
  simp only [Room.Holds, depthOfEntries_le_iff]
  exact ⟨fun h e he n hn => h n hn e he, fun h n hn e he => h e he n hn⟩

/-- How going through a datum breaks down: at a key whose text cannot be made, or at a container
that there is no room for. -/
inductive BreaksDown (naming : Naming) (room : Room) (d : Datum) : Breakdown → Prop
  | longKey {fixed : Bool} {es : Entries Datum} {k : Key} {n : Nat}
      (hes : Within (.mapping fixed es) d) (hk : k ∈ es.keys) (hn : naming.digits = some n)
      (hlong : k.isLong naming = true) : BreaksDown naming room d (.longNumeral n)
  | tooDeep (hd : ¬ room.Holds d.depth) : BreaksDown naming room d (.tooDeep .values)

/-- A datum that can be gone through: the texts of the keys of its mappings can be made, and it is no
deeper than there is room for. -/
structure Fits (naming : Naming) (room : Room) (d : Datum) : Prop where
  shows : ∀ {fixed : Bool} {es : Entries Datum}, Within (.mapping fixed es) d → ∀ k ∈ es.keys,
    k.Shows naming
  holds : room.Holds d.depth

/-- Going through a datum that fits does not break down. -/
theorem Fits.not_breaksDown (h : d.Fits naming room) : ¬ d.BreaksDown naming room cause := by
  intro hbreaks
  cases hbreaks with
  | longKey hes hk hn hlong =>
    rw [h.shows hes _ hk (by rw [hn]; rfl)] at hlong
    cases hlong
  | tooDeep hd => exact hd h.holds

/-- Without limits every datum fits. -/
theorem fits_of_no_limits (hdigits : naming.digits = none) (d : Datum) : d.Fits naming none where
  shows _ _ _ h := by
    rw [hdigits] at h
    cases h
  holds n hn := by cases hn

theorem fits_atom (naming : Naming) (room : Room) (a : Atom) : Fits naming room (.atom a) where
  shows hes := by cases within_atom.mp hes
  holds _ _ := Nat.zero_le _

theorem fits_sequence (hroom : room.enter .values = .ok inner) :
    Fits naming room (.sequence fixed items) ↔ ∀ d ∈ items, d.Fits naming inner := by
  have hdepth : room.Holds (Datum.depth (.sequence fixed items)) ↔ ∀ d ∈ items, inner.Holds d.depth :=
    (Room.holds_succ_iff hroom _).trans holds_depthOfItems_iff
  constructor
  · intro h d hd
    exact ⟨fun hes => h.shows (.item hd hes), hdepth.mp h.holds d hd⟩
  · intro h
    refine ⟨fun hes => ?_, hdepth.mpr fun d hd => (h d hd).holds⟩
    rcases within_sequence.mp hes with he | ⟨d, hd, hes⟩
    · cases he
    · exact (h d hd).shows hes

theorem fits_mapping (hroom : room.enter .values = .ok inner) :
    Fits naming room (.mapping fixed es) ↔
      (∀ k ∈ es.keys, k.Shows naming) ∧ ∀ e ∈ es, e.2.Fits naming inner := by
  have hdepth : room.Holds (Datum.depth (.mapping fixed es)) ↔ ∀ e ∈ es, inner.Holds e.2.depth :=
    (Room.holds_succ_iff hroom _).trans holds_depthOfEntries_iff
  constructor
  · intro h
    exact ⟨h.shows (.refl _), fun e he => ⟨fun hes => h.shows (.entry he hes), hdepth.mp h.holds e he⟩⟩
  · rintro ⟨hkeys, h⟩
    refine ⟨fun hes => ?_, hdepth.mpr fun e he => (h e he).holds⟩
    rcases within_mapping.mp hes with heq | ⟨e, he, hes⟩
    · cases heq
      exact hkeys
    · exact (h e he).shows hes

/-- A container that there is no room for breaks down. -/
theorem breaksDown_of_enter (hroom : room.enter .values = .error cause) (hd : 0 < d.depth) :
    d.BreaksDown naming room cause := by
  obtain ⟨rfl, rfl⟩ := Room.enter_eq_error.mp hroom
  exact .tooDeep fun h => absurd (h 0 rfl) (Nat.not_le_of_lt hd)

theorem BreaksDown.of_item (hroom : room.enter .values = .ok inner) (hd : d ∈ items)
    (h : d.BreaksDown naming inner cause) : BreaksDown naming room (.sequence fixed items) cause := by
  cases h with
  | longKey hes hk hn hlong => exact .longKey (.item hd hes) hk hn hlong
  | tooDeep hdepth =>
    exact .tooDeep fun h => hdepth (holds_depthOfItems_iff.mp ((Room.holds_succ_iff hroom _).mp h) d hd)

theorem BreaksDown.of_entry (hroom : room.enter .values = .ok inner) {e : Key × Datum} (he : e ∈ es)
    (h : e.2.BreaksDown naming inner cause) : BreaksDown naming room (.mapping fixed es) cause := by
  cases h with
  | longKey hes hk hn hlong => exact .longKey (.entry he hes) hk hn hlong
  | tooDeep hdepth =>
    exact .tooDeep fun h =>
      hdepth (holds_depthOfEntries_iff.mp ((Room.holds_succ_iff hroom _).mp h) e he)

/-- A mapping breaks down at a key whose text cannot be made. -/
theorem breaksDown_of_key {k : Key} {plain : String} (hk : k ∈ es.keys)
    (h : naming.shown (k.isLong naming) plain = .error cause) :
    BreaksDown naming room (.mapping fixed es) cause := by
  obtain ⟨n, hn, hlong, rfl⟩ := Naming.shown_eq_error.mp h
  exact .longKey (.refl _) hk hn hlong

end Datum

end Groundplan
