import Groundplan.Proofs.Json.Reading

/-!
# Reading where there is little room

Where there is little room, reading gives what it gives where there is no end to it, or breaks down;
and it breaks down only on a text that opens more brackets than there is room for. More fuel than
twice the length of the text and one more makes no difference.
-/

namespace Groundplan

namespace Json

/-- How many brackets and braces a text has that open. -/
def brackets (cs : List Char) : Nat := cs.countP fun c => c == '[' || c == '\x7b'

theorem brackets_le_of_suffix {cs cs' : List Char} (h : cs <:+ cs') : brackets cs ≤ brackets cs' :=
  h.sublist.countP_le

private theorem brackets_cons {c : Char} (hc : c = '[' ∨ c = '\x7b') (cs : List Char) :
    brackets (c :: cs) = brackets cs + 1 := by
  rcases hc with rfl | rfl <;> simp [brackets]

/-- Reading did not break down. -/
private def Intact {α : Type} (r : Except Stop α) : Prop := ∀ cause, r ≠ .error (.breakdown cause)

private theorem intact_ok {α : Type} (found : α) : Intact (.ok found : Except Stop α) :=
  fun _ h => by cases h

private theorem intact_wrong {α : Type} (reason : Reason) (unread : Nat) :
    Intact (.error (.wrong reason unread) : Except Stop α) := fun _ h => by cases h

private theorem intact_textBody (opened : Nat) (done cs : List Char) :
    Intact (textBody opened done cs) := by
  fun_induction textBody opened done cs
  all_goals first
    | assumption
    | exact intact_ok _
    | exact intact_wrong _ _

private theorem intact_number (cs : List Char) : Intact (number cs) := by
  unfold number
  split
  dsimp only
  split
  · exact nofun
  · unfold afterWhole
    dsimp only
    split
    · split
      · exact nofun
      · exact nofun
    · exact nofun

/-- A result is another one that is intact, or a breakdown for want of room in a text with more
brackets. -/
private def Narrows {α : Type} (room : Room) (cs : List Char) (narrow wide : Except Stop α) : Prop :=
  (narrow = wide ∧ Intact wide) ∨
    ∃ cause n, narrow = .error (.breakdown cause) ∧ room = some n ∧ n < brackets cs

namespace Narrows

variable {α : Type} {room inner : Room} {cs cs' : List Char} {narrow wide : Except Stop α}

private theorem same (h : Intact wide) : Narrows room cs wide wide := .inl ⟨rfl, h⟩

/-- A longer text has no fewer brackets. -/
private theorem of_suffix (hcs : cs <:+ cs') (h : Narrows room cs narrow wide) :
    Narrows room cs' narrow wide := by
  rcases h with h | ⟨cause, n, h, hroom, hn⟩
  · exact .inl h
  · exact .inr ⟨cause, n, h, hroom, Nat.lt_of_lt_of_le hn (brackets_le_of_suffix hcs)⟩

/-- Inside a bracket there is room for one less, and one bracket less. -/
private theorem of_enter {descent : Descent} {c : Char} (hc : c = '[' ∨ c = '\x7b')
    (henter : room.enter descent = .ok inner) (h : Narrows inner cs narrow wide) :
    Narrows room (c :: cs) narrow wide := by
  have hcount := brackets_cons hc cs
  rcases h with h | ⟨cause, n, h, rfl, hn⟩
  · exact .inl h
  · refine .inr ⟨cause, n + 1, h, ?_, by omega⟩
    unfold Room.enter at henter
    split at henter
    · cases henter
    · cases henter
    · cases henter
      rfl

/-- A bracket that cannot be gone into is one more than there is room for. -/
private theorem of_enter_eq_error {descent : Descent} {cause : Breakdown} {c : Char}
    (hc : c = '[' ∨ c = '\x7b') (henter : room.enter descent = .error cause) :
    Narrows room (c :: cs) (.error (.breakdown cause)) wide := by
  obtain ⟨rfl, rfl⟩ := Room.enter_eq_error.mp henter
  exact .inr ⟨_, 0, rfl, rfl, by rw [brackets_cons hc]; exact Nat.succ_pos _⟩

end Narrows

/-- Reading with some fuel comes to what it comes to with any other that is enough, but for want of
room. -/
private structure Settles (fuel : Nat) : Prop where
  value : ∀ (fuel' : Nat) (room : Room) (cs : List Char), 2 * cs.length + 1 ≤ fuel →
    2 * cs.length + 1 ≤ fuel' → Narrows room cs (Json.value fuel room cs) (Json.value fuel' none cs)
  members : ∀ {fuel' : Nat} {room : Room} {done : Entries Datum} {cs : List Char},
    2 * cs.length + 2 ≤ fuel → 2 * cs.length + 2 ≤ fuel' →
      Narrows room cs (Json.members fuel room done cs) (Json.members fuel' none done cs)
  elements : ∀ {fuel' : Nat} {room : Room} {done : List Datum} {cs : List Char},
    2 * cs.length + 2 ≤ fuel → 2 * cs.length + 2 ≤ fuel' →
      Narrows room cs (Json.elements fuel room done cs) (Json.elements fuel' none done cs)

variable {fuel : Nat} {room : Room} {cs : List Char}

private theorem Settles.value_succ (ih : Settles fuel) (fuel' : Nat) (room : Room) (cs : List Char)
    (hfuel : 2 * cs.length + 1 ≤ fuel + 1) (hfuel' : 2 * cs.length + 1 ≤ fuel') :
    Narrows room cs (Json.value (fuel + 1) room cs) (Json.value fuel' none cs) := by
  obtain ⟨fuel', rfl⟩ := Nat.exists_eq_add_of_le' (by omega : 1 ≤ fuel')
  unfold Json.value
  split
  · refine .same fun cause h => ?_
    split at h
    · cases h
    · next rest _ hbody =>
      cases h
      exact intact_textBody _ _ _ _ hbody
  · next rest =>
    have hblank := (skipBlank_suffix rest).length_le
    simp only [List.length_cons] at hfuel hfuel'
    simp only [Room.enter_none]
    cases henter : room.enter .object with
    | error cause => exact .of_enter_eq_error (.inr rfl) henter
    | ok inner =>
      refine .of_enter (.inr rfl) henter (.of_suffix (skipBlank_suffix rest) ?_)
      dsimp only
      split
      · exact .same (intact_ok _)
      · exact ih.members (by omega) (by omega)
  · next rest =>
    have hblank := (skipBlank_suffix rest).length_le
    simp only [List.length_cons] at hfuel hfuel'
    simp only [Room.enter_none]
    cases henter : room.enter .array with
    | error cause => exact .of_enter_eq_error (.inl rfl) henter
    | ok inner =>
      refine .of_enter (.inl rfl) henter (.of_suffix (skipBlank_suffix rest) ?_)
      dsimp only
      split
      · exact .same (intact_ok _)
      · exact ih.elements (by omega) (by omega)
  all_goals first
    | exact .same (intact_number _)
    | exact .same (intact_ok _)

private theorem Settles.members_succ (ih : Settles fuel) {fuel' : Nat} {done : Entries Datum}
    (hfuel : 2 * cs.length + 2 ≤ fuel + 1) (hfuel' : 2 * cs.length + 2 ≤ fuel') :
    Narrows room cs (Json.members (fuel + 1) room done cs) (Json.members fuel' none done cs) := by
  obtain ⟨fuel', rfl⟩ := Nat.exists_eq_add_of_le' (by omega : 1 ≤ fuel')
  unfold Json.members
  split
  · next rest =>
    simp only [List.length_cons] at hfuel hfuel'
    cases hname : textBody ('"' :: rest).length [] rest with
    | error stop =>
      refine .same fun cause h => ?_
      cases h
      exact intact_textBody _ _ _ cause hname
    | ok found =>
      obtain ⟨name, afterName⟩ := found
      have hafterName := suffix_of_textBody hname
      dsimp only
      split
      · next afterColon hcolon =>
        have hafterColon := (suffix_of_skipBlank hcolon).trans hafterName
        have hblank := (skipBlank_suffix afterColon).trans hafterColon
        have hlength := hblank.length_le
        have hstart : skipBlank afterColon <:+ '"' :: rest := hblank.trans (List.suffix_cons _ _)
        rcases ih.value fuel' room (skipBlank afterColon) (by omega) (by omega) with
          ⟨hvalue, hintact⟩ | ⟨cause, n, hvalue, hroom, hn⟩
        · rw [hvalue]
          cases hwide : Json.value fuel' none (skipBlank afterColon) with
          | error stop =>
            dsimp only
            exact .same fun cause h => hintact cause (hwide.trans h)
          | ok found =>
            obtain ⟨d, afterValue⟩ := found
            have hafterValue := (suffix_of_value hwide).trans hstart
            dsimp only
            split
            · exact .same (intact_ok _)
            · next afterComma hcomma =>
              have hafterComma := (skipBlank_suffix afterComma).trans (suffix_of_skipBlank hcomma)
              have hshort := (hafterComma.trans (suffix_of_value hwide)).length_le
              refine .of_suffix (hafterComma.trans hafterValue) (ih.members ?_ ?_)
              · omega
              · omega
            · exact .same (intact_wrong _ _)
        · rw [hvalue]
          exact .inr ⟨cause, n, rfl, hroom, Nat.lt_of_lt_of_le hn (brackets_le_of_suffix hstart)⟩
      · exact .same (intact_wrong _ _)
  · exact .same (intact_wrong _ _)

private theorem Settles.elements_succ (ih : Settles fuel) {fuel' : Nat} {done : List Datum}
    (hfuel : 2 * cs.length + 2 ≤ fuel + 1) (hfuel' : 2 * cs.length + 2 ≤ fuel') :
    Narrows room cs (Json.elements (fuel + 1) room done cs) (Json.elements fuel' none done cs) := by
  obtain ⟨fuel', rfl⟩ := Nat.exists_eq_add_of_le' (by omega : 1 ≤ fuel')
  unfold Json.elements
  rcases ih.value fuel' room cs (by omega) (by omega) with
    ⟨hvalue, hintact⟩ | ⟨cause, n, hvalue, hroom, hn⟩
  · rw [hvalue]
    cases hwide : Json.value fuel' none cs with
    | error stop =>
      dsimp only
      exact .same fun cause h => hintact cause (hwide.trans h)
    | ok found =>
      obtain ⟨d, afterValue⟩ := found
      dsimp only
      split
      · exact .same (intact_ok _)
      · next afterComma hcomma =>
        have hafterComma := (skipBlank_suffix afterComma).trans (suffix_of_skipBlank hcomma)
        have hafterValue : afterValue <:+ cs := suffix_of_value hwide
        have hmore := (skipBlank_suffix afterComma).length_le
        have hcommaLength := (skipBlank_suffix afterValue).length_le
        rw [hcomma, List.length_cons] at hcommaLength
        have hshort := hafterValue.length_le
        refine .of_suffix (hafterComma.trans hafterValue) (ih.elements ?_ ?_)
        · omega
        · omega
      · exact .same (intact_wrong _ _)
  · rw [hvalue]
    exact .inr ⟨cause, n, rfl, hroom, hn⟩

private theorem settles (fuel : Nat) : Settles fuel := by
  induction fuel with
  | zero =>
    constructor
    · intro fuel' room cs h
      omega
    · intro fuel' room done cs h
      omega
    · intro fuel' room done cs h
      omega
  | succ fuel ih => exact ⟨ih.value_succ, ih.members_succ, ih.elements_succ⟩

/-- However much fuel a value is read with, it is enough if it is twice the length of the text and one
more. -/
theorem value_eq_of_le (h : 2 * cs.length + 1 ≤ fuel) :
    value fuel none cs = value (2 * cs.length + 1) none cs := by
  rcases (settles fuel).value _ none cs h (Nat.le_refl _) with ⟨h, -⟩ | ⟨cause, n, -, hroom, -⟩
  · exact h
  · cases hroom

/-- Reading characters gives what it gives where there is always room, or breaks down on more
brackets than there is room for. -/
private theorem readChars_cases (room : Room) (cs : List Char) :
    (readChars room cs = readChars none cs ∧ ∀ cause, readChars none cs ≠ .error (.breakdown cause)) ∨
      ∃ cause n, readChars room cs = .error (.breakdown cause) ∧ room = some n ∧ n < brackets cs := by
  have hlength := (skipBlank_suffix cs).length_le
  unfold readChars whole
  rcases (settles (2 * cs.length + 1)).value (2 * cs.length + 1) room (skipBlank cs) (by omega)
      (by omega) with
    ⟨hvalue, hintact⟩ | ⟨cause, n, hvalue, hroom, hn⟩
  · rw [hvalue]
    refine .inl ⟨rfl, fun cause => ?_⟩
    cases hwide : value (2 * cs.length + 1) none (skipBlank cs) with
    | error stop =>
      cases stop with
      | breakdown cause => exact absurd hwide (hintact cause)
      | wrong | longNumeral => exact fun h => by cases h
    | ok found =>
      dsimp only
      split
      · exact nofun
      · next h =>
        split at h
        · cases h
        · cases h
          exact nofun
  · refine .inr ⟨cause, n, by rw [hvalue]; rfl, hroom, ?_⟩
    exact Nat.lt_of_lt_of_le hn (brackets_le_of_suffix (skipBlank_suffix cs))

/-- Reading a text gives what it gives where there is always room, or breaks down on more brackets
than there is room for. -/
theorem readWithin_cases (room : Room) (text : String) :
    (readWithin room text = read text ∧ ∀ cause, read text ≠ .error (.breakdown cause)) ∨
      ∃ cause n, readWithin room text = .error (.breakdown cause) ∧ room = some n ∧
        n < brackets text.toList := by
  unfold read readWithin
  split
  · exact .inl ⟨rfl, nofun⟩
  · exact readChars_cases room text.toList

/-- Reading bytes gives what it gives where there is always room, or breaks down on more brackets
than there is room for. -/
theorem readBytesWithin_cases (room : Room) (bytes : List UInt8) :
    (readBytesWithin room bytes = readBytes bytes ∧
        ∀ cause, readBytes bytes ≠ .error (.breakdown cause)) ∨
      ∃ text cause n, Text.ofUnknown bytes = .ok text ∧
        readBytesWithin room bytes = .error (.breakdown cause) ∧ room = some n ∧
        n < brackets text.toList := by
  unfold readBytes readBytesWithin
  cases htext : Text.ofUnknown bytes with
  | error e => exact .inl ⟨rfl, nofun⟩
  | ok text =>
    rcases readChars_cases room text.toList with h | ⟨cause, n, h⟩
    · exact .inl h
    · exact .inr ⟨text, cause, n, rfl, h⟩

/-- Reading a text does not break down where there is always room. -/
theorem read_ne_breakdown (text : String) (cause : Breakdown) :
    read text ≠ .error (.breakdown cause) := by
  rcases readWithin_cases none text with ⟨-, h⟩ | ⟨_, _, -, hroom, -⟩
  · exact h cause
  · cases hroom

/-- Reading bytes does not break down where there is always room. -/
theorem readBytes_ne_breakdown (bytes : List UInt8) (cause : Breakdown) :
    readBytes bytes ≠ .error (.breakdown cause) := by
  rcases readBytesWithin_cases none bytes with ⟨-, h⟩ | ⟨_, _, _, -, -, hroom, -⟩
  · exact h cause
  · cases hroom

/-! ### Texts that are too deep -/

/-- So many brackets that open are one more than there is room for. -/
private theorem value_replicate {n fuel : Nat} (h : 2 * n < fuel) :
    value fuel (some n) (List.replicate (n + 1) '[') =
      .error (.breakdown (.tooDeep .array)) := by
  induction n generalizing fuel with
  | zero =>
    obtain ⟨fuel, rfl⟩ := Nat.exists_eq_add_of_le' h
    rfl
  | succ n ih =>
    obtain ⟨fuel, rfl⟩ := Nat.exists_eq_add_of_le' (by omega : 2 ≤ fuel)
    have hinner := ih (by omega : 2 * n < fuel)
    have hskip : skipBlank (List.replicate (n + 1) '[') = '[' :: List.replicate n '[' := rfl
    have hopen : value (fuel + 2) (some (n + 1)) (List.replicate (n + 2) '[') =
        elements (fuel + 1) (some n) [] (List.replicate (n + 1) '[') := by
      rw [List.replicate_succ, value]
      simp only [Room.enter, hskip]
      rfl
    rw [hopen, elements, hinner]

/-- A text of so many brackets that open. -/
def bracketText (n : Nat) : String := String.ofList (List.replicate n '[')

/-- A text of one bracket that opens more than there is room for is not read. -/
theorem readWithin_brackets (n : Nat) :
    readWithin (some n) (bracketText (n + 1)) = .error (.breakdown (.tooDeep .array)) := by
  have hskip : skipBlank (List.replicate (n + 1) '[') = List.replicate (n + 1) '[' := rfl
  rw [readWithin, bracketText, String.toList_ofList]
  show readChars (some n) (List.replicate (n + 1) '[') = _
  rw [readChars, whole, hskip, value_replicate (by rw [List.length_replicate]; omega)]
  rfl

end Json

end Groundplan
