import Groundplan.Json.Printer
import Groundplan.Proofs.Datum.Limits
import Groundplan.Proofs.Datum.Relabelling
import Groundplan.Proofs.Json.Numbers
import Mathlib.Data.List.Induction
import Mathlib.Data.List.TakeWhile
import Mathlib.Data.Nat.Digits.Defs

/-!
# What reading gives

Whatever the text, reading gives lists, open mappings of fields, and scalars; no integer has more
digits than are ever written, no container more parts than the text has characters, and nothing is
deeper than there was room for. Writing comes to an end exactly if every part has a form, whatever
the layout. So what was read can be written again.
-/

namespace Groundplan

namespace Json

/-- A part of what is read from a text of at most so many characters. -/
def Given (n : Nat) : Datum → Prop
  | .atom (.scalar s) => isLong s = false
  | .sequence false items => items.length ≤ n
  | .mapping false es => Entries.Fields es ∧ es.length ≤ n
  | _ => False

variable {n : Nat}

private theorem everywhere_scalar {s : Scalar} (h : isLong s = false) :
    (Datum.scalar s).Everywhere (Given n) := by
  intro x hx
  obtain rfl := Datum.within_atom.mp hx
  exact h

/-- A number has no more digits than it is spelt with. -/
theorem numberOf_lt {ds : List Char} (h : ∀ c ∈ ds, c.isDigit = true) :
    numberOf ds < 10 ^ ds.length := by
  induction ds using List.reverseRecOn with
  | nil => decide
  | append_singleton ds c ih =>
    have hc : c.toNat - '0'.toNat < 10 := by
      have hdigit := h c (by simp)
      simp only [Char.isDigit, Bool.and_eq_true, decide_eq_true_eq] at hdigit
      have hle : c.toNat ≤ '9'.toNat := hdigit.2
      have hvalues : '9'.toNat = 57 ∧ '0'.toNat = 48 := by decide
      omega
    have hds := ih fun c hc => h c (by simp [hc])
    have hlast : numberOf (ds ++ [c]) = 10 * numberOf ds + (c.toNat - '0'.toNat) := by
      simp [numberOf]
    rw [hlast, List.length_append, List.length_singleton, Nat.pow_succ]
    omega

private theorem isDigit_of_mem_wholeDigits {cs : List Char} :
    ∀ c ∈ wholeDigits cs, c.isDigit = true := by
  intro c hc
  unfold wholeDigits at hc
  split at hc
  · obtain rfl := List.mem_singleton.mp hc
    rfl
  · exact List.mem_takeWhile_imp hc

/-! ### What is left of a text -/

theorem skipBlank_suffix (cs : List Char) : skipBlank cs <:+ cs := List.dropWhile_suffix _

theorem suffix_of_skipBlank {cs rest : List Char} {c : Char} (h : skipBlank cs = c :: rest) :
    rest <:+ cs :=
  (List.suffix_cons c rest).trans (h ▸ skipBlank_suffix cs)

theorem suffix_of_textBody {opened : Nat} {done cs : List Char}
    {found : List Char × List Char} (h : textBody opened done cs = .ok found) : found.2 <:+ cs := by
  fun_induction textBody opened done cs
  case case2 =>
    cases h
    exact List.suffix_cons _ _
  all_goals first
    | cases h
    | next ih =>
      refine (ih h).trans ?_
      repeat first
        | exact List.suffix_rfl
        | refine List.IsSuffix.trans ?_ (List.suffix_cons _ _)

private theorem suffix_of_fraction? {cs : List Char} {found : List Char × List Char}
    (h : fraction? cs = some found) : found.2 <:+ cs := by
  unfold fraction? at h
  split at h
  · split at h
    · cases h
    · cases h
      exact (List.dropWhile_suffix _).trans (List.suffix_cons _ _)
  · cases h

private theorem suffix_of_exponent? {cs : List Char} {found : Int × List Char}
    (h : exponent? cs = some found) : found.2 <:+ cs := by
  unfold exponent? at h
  split at h
  · split at h
    · next e rest he =>
      split at h
      next negative digits hsign =>
      have hdigits : digits <:+ rest := by
        split at hsign <;> cases hsign
        · exact List.suffix_cons _ _
        · exact List.suffix_cons _ _
        · exact List.suffix_rfl
      split at h
      · cases h
      · cases h
        exact ((List.dropWhile_suffix _).trans hdigits).trans (List.suffix_cons _ _)
    · cases h
  · cases h

/-- What is read with what is left of the text. -/
private structure Leaves (n : Nat) (room : Room) (cs : List Char) (found : Datum × List Char) :
    Prop where
  given : found.1.Everywhere (Given n)
  suffix : found.2 <:+ cs
  holds : room.Holds found.1.depth

variable {room : Room}

private theorem leaves_scalar {s : Scalar} {cs rest : List Char} (hs : isLong s = false)
    (hrest : rest <:+ cs) : Leaves n room cs (.scalar s, rest) :=
  ⟨everywhere_scalar hs, hrest, fun _ _ => Nat.zero_le _⟩

private theorem leaves_of_afterWhole {negative : Bool} {whole cs : List Char}
    {found : Datum × List Char} (hwhole : ∀ c ∈ whole, c.isDigit = true)
    (hne : whole ≠ []) (h : afterWhole negative whole cs = .ok found) :
    Leaves n room cs found := by
  have hfraction : ((fraction? cs).map (·.2)).getD cs <:+ cs := by
    cases hf : fraction? cs with
    | none => exact List.suffix_rfl
    | some found => exact suffix_of_fraction? hf
  have hexponent (cs : List Char) : ((exponent? cs).map (·.2)).getD cs <:+ cs := by
    cases he : exponent? cs with
    | none => exact List.suffix_rfl
    | some found => exact suffix_of_exponent? he
  unfold afterWhole at h
  dsimp only at h
  split at h
  · split at h
    · cases h
    · next hlong =>
      cases h
      refine leaves_scalar ?_ ((hexponent _).trans hfraction)
      have hdigits := Nat.toDigits_length 10 (numberOf whole) whole.length
        (List.length_pos_iff.mpr hne) (numberOf_lt hwhole)
      have hshort : ¬ Text.digitLimit < (Nat.toDigits 10 (numberOf whole)).length := by omega
      cases negative <;> simpa [isLong] using hshort
  · cases h
    exact leaves_scalar rfl ((hexponent _).trans hfraction)

private theorem leaves_of_number {cs : List Char} {found : Datum × List Char}
    (h : number cs = .ok found) : Leaves n room cs found := by
  unfold number at h
  split at h
  next negative body hsign =>
  have hbody : body <:+ cs := by
    split at hsign <;> cases hsign
    · exact List.suffix_cons _ _
    · exact List.suffix_rfl
  dsimp only at h
  split at h
  · cases h
  · next hne =>
    obtain ⟨hgiven, hsuffix, hholds⟩ :=
      leaves_of_afterWhole isDigit_of_mem_wholeDigits (by simpa using hne) h
    exact ⟨hgiven, (hsuffix.trans (List.drop_suffix _ _)).trans hbody, hholds⟩

/-- What is read with some fuel is fit if what was read before it is. The parts of an array or an
object are read with the room inside it. -/
private structure Gives (n fuel : Nat) : Prop where
  value : ∀ {room : Room} {cs : List Char} {found : Datum × List Char}, cs.length ≤ n →
    Json.value fuel room cs = .ok found → Leaves n room cs found
  members : ∀ {room inner : Room} {done : Entries Datum} {cs : List Char} {found : Datum × List Char},
    room.enter .object = .ok inner → done.length + cs.length ≤ n → done.Fields →
      (∀ d ∈ done.values, d.Everywhere (Given n) ∧ inner.Holds d.depth) →
        Json.members fuel inner done cs = .ok found → Leaves n room cs found
  elements : ∀ {room inner : Room} {done : List Datum} {cs : List Char} {found : Datum × List Char},
    room.enter .array = .ok inner → done.length + cs.length < n →
      (∀ d ∈ done, d.Everywhere (Given n) ∧ inner.Holds d.depth) →
        Json.elements fuel inner done cs = .ok found → Leaves n room cs found

private theorem Gives.value_succ {fuel : Nat} (ih : Gives n fuel) {cs : List Char}
    {found : Datum × List Char} (hn : cs.length ≤ n)
    (h : Json.value (fuel + 1) room cs = .ok found) : Leaves n room cs found := by
  unfold Json.value at h
  split at h
  · split at h
    · next hbody =>
      cases h
      exact leaves_scalar rfl ((suffix_of_textBody hbody).trans (List.suffix_cons _ _))
    · cases h
  · next rest =>
    have hblank := (skipBlank_suffix rest).length_le
    simp only [List.length_cons] at hn
    split at h
    · cases h
    · next inner henter =>
      split at h
      · next hskip =>
        cases h
        exact ⟨Datum.everywhere_mapping.mpr ⟨⟨Entries.fields_nil, Nat.zero_le _⟩, by simp⟩,
          (suffix_of_skipBlank hskip).trans (List.suffix_cons _ _),
          (Room.holds_succ_iff henter 0).mpr fun _ _ => Nat.zero_le _⟩
      · have hshort : ([] : Entries Datum).length + (skipBlank rest).length ≤ n := by
          simp only [List.length_nil]
          omega
        obtain ⟨hgiven, hsuffix, hholds⟩ :=
          ih.members henter hshort Entries.fields_nil (by simp [Entries.values]) h
        exact ⟨hgiven, (hsuffix.trans (skipBlank_suffix rest)).trans (List.suffix_cons _ _), hholds⟩
  · next rest =>
    have hblank := (skipBlank_suffix rest).length_le
    simp only [List.length_cons] at hn
    split at h
    · cases h
    · next inner henter =>
      split at h
      · next hskip =>
        cases h
        exact ⟨Datum.everywhere_sequence.mpr ⟨Nat.zero_le _, by simp⟩,
          (suffix_of_skipBlank hskip).trans (List.suffix_cons _ _),
          (Room.holds_succ_iff henter 0).mpr fun _ _ => Nat.zero_le _⟩
      · have hshort : ([] : List Datum).length + (skipBlank rest).length < n := by
          simp only [List.length_nil]
          omega
        obtain ⟨hgiven, hsuffix, hholds⟩ := ih.elements henter hshort (by simp) h
        exact ⟨hgiven, (hsuffix.trans (skipBlank_suffix rest)).trans (List.suffix_cons _ _), hholds⟩
  all_goals first
    | exact leaves_of_number h
    | cases h
      refine leaves_scalar rfl ?_
      repeat first
        | exact List.suffix_rfl
        | refine List.IsSuffix.trans ?_ (List.suffix_cons _ _)

private theorem length_set_le (es : Entries Datum) (key : Key) (d : Datum) :
    (es.set key d).length ≤ es.length + 1 := by
  have hlength {es : Entries Datum} : es.length = es.keys.length := by simp [Entries.keys]
  rcases Entries.keys_set es key d with hkeys | ⟨-, hkeys⟩ <;>
    rw [hlength, hlength, hkeys] <;> simp

private theorem Gives.members_succ {fuel : Nat} (ih : Gives n fuel) {inner : Room}
    {done : Entries Datum} {cs : List Char} {found : Datum × List Char}
    (henter : room.enter .object = .ok inner) (hn : done.length + cs.length ≤ n)
    (hfields : done.Fields)
    (hdone : ∀ d ∈ done.values, d.Everywhere (Given n) ∧ inner.Holds d.depth)
    (h : Json.members (fuel + 1) inner done cs = .ok found) : Leaves n room cs found := by
  unfold Json.members at h
  split at h
  · next rest =>
    split at h
    · cases h
    · next name afterName hname =>
      have hafterName : afterName <:+ '"' :: rest :=
        (suffix_of_textBody hname).trans (List.suffix_cons _ _)
      have hshort := (suffix_of_textBody hname).length_le
      have hcolon := (skipBlank_suffix afterName).length_le
      dsimp only at hshort
      simp only [List.length_cons] at hn
      split at h
      · next afterColon hskip =>
        have hafterColon := (suffix_of_skipBlank hskip).trans hafterName
        rw [hskip, List.length_cons] at hcolon
        have hblank := (skipBlank_suffix afterColon).length_le
        split at h
        · cases h
        · next d afterValue hvalue =>
          obtain ⟨hgiven, hsuffix, hholds⟩ := ih.value (by omega) hvalue
          have hvlength := hsuffix.length_le
          dsimp only at hvlength
          have hafterValue := (hsuffix.trans (skipBlank_suffix afterColon)).trans hafterColon
          have hcomma := (skipBlank_suffix afterValue).length_le
          have hset := length_set_le done (.text (String.ofList name)) d
          have hfields' := hfields.set (String.ofList name) d
          have hdone' : ∀ d' ∈ (done.set (.text (String.ofList name)) d).values,
              d'.Everywhere (Given n) ∧ inner.Holds d'.depth := by
            intro d' hd'
            rcases Entries.mem_values_set hd' with hd' | rfl
            · exact hdone d' hd'
            · exact ⟨hgiven, hholds⟩
          split at h
          · next hclose =>
            cases h
            rw [hclose, List.length_cons] at hcomma
            refine ⟨Datum.everywhere_mapping.mpr ⟨⟨hfields', by omega⟩, fun e he => ?_⟩,
              (suffix_of_skipBlank hclose).trans hafterValue,
              (Room.holds_succ_iff henter _).mpr (Datum.holds_depthOfEntries_iff.mpr fun e he => ?_)⟩
            · exact (hdone' e.2 (List.mem_map_of_mem he)).1
            · exact (hdone' e.2 (List.mem_map_of_mem he)).2
          · next afterComma hskip =>
            have hafterComma := (suffix_of_skipBlank hskip).trans hafterValue
            rw [hskip, List.length_cons] at hcomma
            have hmore := (skipBlank_suffix afterComma).length_le
            obtain ⟨hgiven, hsuffix, hholds⟩ := ih.members henter (by omega) hfields' hdone' h
            exact ⟨hgiven, (hsuffix.trans (skipBlank_suffix afterComma)).trans hafterComma, hholds⟩
          · cases h
      · cases h
  · cases h

private theorem Gives.elements_succ {fuel : Nat} (ih : Gives n fuel) {inner : Room}
    {done : List Datum} {cs : List Char} {found : Datum × List Char}
    (henter : room.enter .array = .ok inner) (hn : done.length + cs.length < n)
    (hdone : ∀ d ∈ done, d.Everywhere (Given n) ∧ inner.Holds d.depth)
    (h : Json.elements (fuel + 1) inner done cs = .ok found) : Leaves n room cs found := by
  unfold Json.elements at h
  split at h
  · cases h
  · next d rest hvalue =>
    obtain ⟨hgiven, hsuffix, hholds⟩ := ih.value (by omega) hvalue
    have hvlength := hsuffix.length_le
    dsimp only at hvlength
    have hcomma := (skipBlank_suffix rest).length_le
    have hdone : ∀ d' ∈ d :: done, d'.Everywhere (Given n) ∧ inner.Holds d'.depth :=
      List.forall_mem_cons.mpr ⟨⟨hgiven, hholds⟩, hdone⟩
    split at h
    · next hclose =>
      cases h
      rw [hclose, List.length_cons] at hcomma
      refine ⟨Datum.everywhere_sequence.mpr ⟨?_, fun d hd => (hdone d (List.mem_reverse.mp hd)).1⟩,
        (suffix_of_skipBlank hclose).trans hsuffix, (Room.holds_succ_iff henter _).mpr
          (Datum.holds_depthOfItems_iff.mpr fun d hd => (hdone d (List.mem_reverse.mp hd)).2)⟩
      show (d :: done).reverse.length ≤ n
      simp only [List.length_reverse, List.length_cons]
      omega
    · next afterComma hskip =>
      have hafterComma := (suffix_of_skipBlank hskip).trans hsuffix
      rw [hskip, List.length_cons] at hcomma
      have hmore := (skipBlank_suffix afterComma).length_le
      obtain ⟨hgiven, hsuffix, hholds⟩ :=
        ih.elements henter (by simp only [List.length_cons]; omega) hdone h
      exact ⟨hgiven, (hsuffix.trans (skipBlank_suffix afterComma)).trans hafterComma, hholds⟩
    · cases h

private theorem gives (n fuel : Nat) : Gives n fuel := by
  induction fuel with
  | zero =>
    constructor
    · intro room cs found _ h
      cases h
    · intro room inner done cs found _ _ _ _ h
      cases h
    · intro room inner done cs found _ _ _ h
      cases h
  | succ fuel ih => exact ⟨ih.value_succ, ih.members_succ, ih.elements_succ⟩

/-- What is left after a value is an end of the text. -/
theorem suffix_of_value {fuel : Nat} {cs : List Char} {found : Datum × List Char}
    (h : value fuel room cs = .ok found) : found.2 <:+ cs :=
  ((gives _ fuel).value (Nat.le_refl _) h).suffix

private theorem leaves_of_readChars {cs : List Char} {d : Datum} (h : readChars room cs = .ok d) :
    d.Everywhere (Given cs.length) ∧ room.Holds d.depth := by
  unfold readChars whole at h
  split at h
  · next hwhole =>
    cases h
    split at hwhole
    · cases hwhole
    · next hvalue =>
      split at hwhole
      · cases hwhole
        have hleaves := (gives cs.length _).value (skipBlank_suffix cs).length_le hvalue
        exact ⟨hleaves.given, hleaves.holds⟩
      · cases hwhole
  · cases h

/-- All parts of what is read are of the kinds that reading gives, and none is larger than the
text. -/
theorem everywhere_given_of_readWithin {text : String} {d : Datum}
    (h : readWithin room text = .ok d) : d.Everywhere (Given text.toList.length) := by
  unfold readWithin at h
  split at h
  · cases h
  · exact (leaves_of_readChars h).1

/-- What is read is no deeper than there was room for. -/
theorem holds_of_readWithin {text : String} {d : Datum} (h : readWithin room text = .ok d) :
    room.Holds d.depth := by
  unfold readWithin at h
  split at h
  · cases h
  · exact (leaves_of_readChars h).2

/-- All parts of what is read from bytes are of the kinds that reading gives. -/
theorem exists_given_of_readBytesWithin {bytes : List UInt8} {d : Datum}
    (h : readBytesWithin room bytes = .ok d) : ∃ n, d.Everywhere (Given n) := by
  unfold readBytesWithin at h
  split at h
  · exact ⟨_, (leaves_of_readChars h).1⟩
  · cases h

/-! ### What can be written again -/

/-- A part that has a JSON form as far as it goes by itself: a scalar without too many digits, a
list or a tuple, and an open mapping whose keys can be written. -/
def Formed : Datum → Prop
  | .atom (.scalar s) => isLong s = false
  | .sequence _ _ => True
  | .mapping false es => ∀ k ∈ Entries.keys es, (keyDraft k).fault = none
  | _ => False

/-- The keys and scalars of a datum have a JSON form, and its containers are lists and open
mappings. -/
def Writable (d : Datum) : Prop := ∀ layout depth, (draft layout depth d).fault = none

private theorem fault_append {a b : Draft} :
    (a ++ b).fault = none ↔ a.fault = none ∧ b.fault = none := by
  obtain ⟨cs, fault⟩ := a
  cases fault with
  | none => exact (and_iff_right rfl).symm
  | some fault => exact iff_of_false (Option.some_ne_none _) fun h => (by cases h.1)

section Formed

variable {layout : Layout} {depth : Nat}

private theorem fault_leadDraft (before : List Char) (d : Datum) :
    (leadDraft before d ++ draft layout depth d).fault = none ↔
      (draft layout depth d).fault = none := by
  rw [fault_append]
  rcases leadDraft_cases before d with hlead | ⟨hlead, hstop⟩
  · rw [hlead]
    exact and_iff_right rfl
  · rw [hlead, hstop]
    exact and_self_iff

/-- A colon stands between a key and what it leads to. -/
private theorem fault_name {a b : Draft} :
    (a ++ .ofChars [':', ' '] ++ b).fault = none ↔ a.fault = none ∧ b.fault = none := by
  rw [fault_append, fault_append]
  exact and_congr_left' (and_iff_left rfl)

private theorem fault_itemsDraft {items : List Datum}
    (h : ∀ d ∈ items, ∀ depth, (draft layout depth d).fault = none ↔ d.Everywhere Formed) :
    (itemsDraft layout depth items).fault = none ↔ ∀ d ∈ items, d.Everywhere Formed := by
  induction items with
  | nil => exact iff_of_true rfl (by simp)
  | cons d ds ih =>
    obtain ⟨hd, hds⟩ := List.forall_mem_cons.mp h
    rw [itemsDraft, fault_append, fault_leadDraft, hd (depth + 1), ih hds, List.forall_mem_cons]

private theorem fault_entriesDraft {es : Entries Datum}
    (h : ∀ e ∈ es, ∀ depth, (draft layout depth e.2).fault = none ↔ e.2.Everywhere Formed) :
    (entriesDraft layout depth es).fault = none ↔
      (∀ k ∈ es.keys, (keyDraft k).fault = none) ∧ ∀ e ∈ es, e.2.Everywhere Formed := by
  induction es with
  | nil => exact iff_of_true rfl (by simp [Entries.keys])
  | cons e es ih =>
    obtain ⟨k, d⟩ := e
    obtain ⟨hd, hes⟩ := List.forall_mem_cons.mp h
    have hkeys : Entries.keys ((k, d) :: es) = k :: Entries.keys es := rfl
    rw [entriesDraft, fault_append, fault_name, hd (depth + 1), ih hes, hkeys, List.forall_mem_cons,
      List.forall_mem_cons]
    split
    · next fault hfault =>
      have hkey : ¬ (keyDraft k).fault = none := by simp [hfault]
      exact iff_of_false (fun h => (by cases h.1.1)) fun h => hkey h.1.1
    · exact and_and_and_comm

/-- Writing comes to an end in every layout exactly if all parts have a form. -/
theorem fault_draft_eq_none (d : Datum) (depth : Nat) :
    (draft layout depth d).fault = none ↔ d.Everywhere Formed := by
  have hself {d : Datum} (hd : ¬ Formed d) : ¬ d.Everywhere Formed := fun h => hd (h d (.refl d))
  induction d using Datum.induction generalizing depth with
  | atom a =>
    cases a with
    | scalar s =>
      rw [draft, scalarDraft]
      by_cases hlong : isLong s = true
      · rw [if_pos hlong]
        exact iff_of_false (Option.some_ne_none _) (hself (by simp [Formed, hlong]))
      · rw [if_neg hlong]
        refine iff_of_true rfl fun x hx => ?_
        obtain rfl := Datum.within_atom.mp hx
        exact Bool.eq_false_iff.mpr hlong
    | _ => exact iff_of_false (Option.some_ne_none _) (hself id)
  | loop c => cases c <;> exact iff_of_false (Option.some_ne_none _) (hself id)
  | sequence fixed items ih =>
    rw [Datum.everywhere_sequence]
    cases items with
    | nil => exact iff_of_true rfl ⟨trivial, by simp⟩
    | cons d ds =>
      obtain ⟨hd, hds⟩ := List.forall_mem_cons.mp ih
      have hfirst : (draft layout (depth + 1) d).fault = none ↔ d.Everywhere Formed := hd (depth + 1)
      rw [draft, fault_append, fault_leadDraft, hfirst, fault_itemsDraft hds, List.forall_mem_cons]
      exact (and_iff_right trivial).symm
  | mapping fixed es ih =>
    cases fixed with
    | true => exact iff_of_false (Option.some_ne_none _) (hself id)
    | false =>
      rw [Datum.everywhere_mapping]
      cases es with
      | nil => exact iff_of_true rfl ⟨by simp [Formed, Entries.keys], by simp⟩
      | cons e es =>
        obtain ⟨k, d⟩ := e
        obtain ⟨hd, hes⟩ := List.forall_mem_cons.mp ih
        have hfirst : (draft layout (depth + 1) d).fault = none ↔ d.Everywhere Formed := hd (depth + 1)
        show _ ↔ (∀ k' ∈ k :: Entries.keys es, (keyDraft k').fault = none) ∧ _
        rw [draft, fault_append, fault_name, hfirst, fault_entriesDraft hes, List.forall_mem_cons,
          List.forall_mem_cons]
        exact and_and_and_comm

end Formed

theorem writable_iff {d : Datum} : Writable d ↔ d.Everywhere Formed :=
  ⟨fun h => (fault_draft_eq_none d 0).mp (h .oneLine 0),
    fun h _ depth => (fault_draft_eq_none d depth).mpr h⟩

theorem writable_scalar {s : Scalar} (h : isLong s = false) : Writable (.scalar s) := by
  intro layout depth
  simp [draft, scalarDraft, h, Draft.ofChars]

theorem writable_list {items : List Datum} (h : ∀ d ∈ items, Writable d) :
    Writable (.list items) :=
  writable_iff.mpr (Datum.everywhere_sequence.mpr ⟨trivial, fun d hd => writable_iff.mp (h d hd)⟩)

theorem writable_mapping {es : Entries Datum} (hkeys : ∀ k ∈ es.keys, ∃ s, k = .text s)
    (h : ∀ e ∈ es, Writable e.2) : Writable (.mapping false es) := by
  refine writable_iff.mpr (Datum.everywhere_mapping.mpr ⟨?_, fun e he => writable_iff.mp (h e he)⟩)
  intro k hk
  obtain ⟨s, rfl⟩ := hkeys k hk
  rfl

theorem writable_record {fields : List (String × Datum)} (h : ∀ field ∈ fields, Writable field.2) :
    Writable (.record fields) := by
  refine writable_mapping (fun k hk => ?_) fun e he => ?_
  · obtain ⟨e, he, rfl⟩ := List.mem_map.mp hk
    obtain ⟨field, -, rfl⟩ := List.mem_map.mp he
    exact ⟨field.1, rfl⟩
  · obtain ⟨field, hfield, rfl⟩ := List.mem_map.mp he
    exact h field hfield

/-- What is writable has a JSON text in every layout. -/
theorem Writable.print {d : Datum} (h : Writable d) (layout : Layout) :
    ∃ text, Json.print layout d = .ok text := by
  refine ⟨String.ofList (draft layout 0 d).written, ?_⟩
  rw [Json.print, Draft.result, h layout 0]

/-- What was read can be written. -/
theorem writable_of_given {d : Datum} (h : d.Everywhere (Given n)) : Writable d := by
  refine writable_iff.mpr fun x hx => ?_
  have hgiven := h x hx
  unfold Given at hgiven
  split at hgiven
  · exact hgiven
  · trivial
  · intro k hk
    obtain ⟨s, rfl⟩ := hgiven.1.texts k hk
    rfl
  · exact hgiven.elim

/-- All mappings that reading gives are fields. -/
theorem fields_of_read {text : String} {d : Datum} (h : read text = .ok d) {fixed : Bool}
    {es : Entries Datum} (hes : Datum.Within (.mapping fixed es) d) : es.Fields := by
  have hgiven := everywhere_given_of_readWithin h _ hes
  cases fixed with
  | false => exact hgiven.1
  | true => exact hgiven.elim

end Json

end Groundplan
