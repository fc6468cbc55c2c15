import Groundplan.Proofs.Json.Lines
import Groundplan.Proofs.Json.Reading

/-!
# Brackets of JSON text

What is read as a value closes every bracket and brace that it opens outside quotes. Where writing
stops, the brackets around that place are still open. So what a writer that stopped leaves behind is
no JSON text.
-/

namespace Groundplan

namespace Json

/-! ### Open brackets -/

/-- Whether a character stands outside quotes, in them, or there after a backslash. -/
inductive Mode where
  | outside
  | quoted
  | escaped

/-- What a character outside quotes adds to the brackets and braces that are open. -/
def opening (c : Char) : Int :=
  if c = '[' ∨ c = '\x7b' then 1 else if c = ']' ∨ c = '\x7d' then -1 else 0

/-- How many more brackets and braces a text opens outside quotes than it closes there. -/
def unclosed : Mode → List Char → Int
  | _, [] => 0
  | .outside, c :: cs =>
      if c = '"' then unclosed .quoted cs else opening c + unclosed .outside cs
  | .quoted, c :: cs =>
      if c = '"' then unclosed .outside cs
      else if c = '\\' then unclosed .escaped cs
      else unclosed .quoted cs
  | .escaped, _ :: cs => unclosed .quoted cs

/-- A character that opens and closes nothing. -/
structure Inert (c : Char) : Prop where
  ne_quote : c ≠ '"'
  opening_eq : opening c = 0

instance : DecidablePred Inert := fun c =>
  decidable_of_iff (c ≠ '"' ∧ opening c = 0) ⟨fun h => ⟨h.1, h.2⟩, fun h => ⟨h.1, h.2⟩⟩

/-- Bare characters are inert. -/
theorem inert_of_isBare {c : Char} (h : isBare c = true) : Inert c := by
  have hne (d : Char) (hd : isBare d = false) : c ≠ d := by
    rintro rfl
    exact absurd h (by simp [hd])
  refine ⟨hne _ (by decide), ?_⟩
  unfold opening
  rw [if_neg, if_neg]
  · exact not_or.mpr ⟨hne _ (by decide), hne _ (by decide)⟩
  · exact not_or.mpr ⟨hne _ (by decide), hne _ (by decide)⟩

/-- An inert character counts for nothing. -/
theorem unclosed_cons {c : Char} (h : Inert c) (cs : List Char) :
    unclosed .outside (c :: cs) = unclosed .outside cs := by
  rw [unclosed, if_neg h.ne_quote, h.opening_eq, Int.zero_add]

private theorem unclosed_dropWhile {p : Char → Bool} (hp : ∀ c, p c = true → Inert c)
    (cs : List Char) : unclosed .outside (cs.dropWhile p) = unclosed .outside cs := by
  induction cs with
  | nil => rfl
  | cons c cs ih =>
    by_cases hc : p c = true
    · rw [List.dropWhile_cons_of_pos hc, ih, unclosed_cons (hp c hc)]
    · rw [List.dropWhile_cons_of_neg hc]

private theorem inert_of_isDigit {c : Char} (h : c.isDigit = true) : Inert c :=
  inert_of_isBare (isBare_of_isDigit h)

/-- Blanks count for nothing. -/
theorem unclosed_skipBlank (cs : List Char) :
    unclosed .outside (skipBlank cs) = unclosed .outside cs := by
  apply unclosed_dropWhile
  intro c hc
  simp only [Bool.or_eq_true, beq_iff_eq] at hc
  rcases hc with ((rfl | rfl) | rfl) | rfl <;> decide

/-! ### What is read closes its brackets -/

private theorem quoted_of_hexValue? {c : Char} {n : Nat} (h : hexValue? c = some n)
    (cs : List Char) : unclosed .quoted (c :: cs) = unclosed .quoted cs := by
  have hquote : c ≠ '"' := by
    rintro rfl
    cases h
  have hslash : c ≠ '\\' := by
    rintro rfl
    cases h
  rw [unclosed, if_neg hquote, if_neg hslash]

private theorem quoted_of_hex4? {p q r s : Char} {n : Nat} (h : hex4? p q r s = some n)
    (cs : List Char) : unclosed .quoted (p :: q :: r :: s :: cs) = unclosed .quoted cs := by
  simp only [hex4?, bind, Option.bind_eq_some_iff] at h
  obtain ⟨_, hp, _, hq, _, hr, _, hs, -⟩ := h
  rw [quoted_of_hexValue? hp, quoted_of_hexValue? hq, quoted_of_hexValue? hr, quoted_of_hexValue? hs]

private theorem quoted_code {p q r s : Char} {n : Nat} (h : hex4? p q r s = some n)
    (cs : List Char) :
    unclosed .quoted ('\\' :: 'u' :: p :: q :: r :: s :: cs) = unclosed .quoted cs :=
  quoted_of_hex4? h cs

/-- A text in quotes ends outside quotes. -/
theorem unclosed_of_textBody {opened : Nat} {done cs text rest : List Char}
    (h : textBody opened done cs = .ok (text, rest)) :
    unclosed .quoted cs = unclosed .outside rest := by
  fun_induction textBody opened done cs
  case case2 =>
    cases h
    rfl
  case case5 hn _ _ _ _ _ _ hm _ ih =>
    rw [quoted_code hn, quoted_code hm]
    exact ih h
  case case6 hn _ _ _ _ _ _ _ _ ih =>
    rw [quoted_code hn]
    exact ih h
  case case8 hn _ _ _ ih =>
    rw [quoted_code hn]
    exact ih h
  case case11 ih => exact ih h
  case case14 c more hquote _ _ hend hslash _ ih =>
    have hne : c ≠ '\\' := by
      intro hc
      cases more with
      | nil => exact hend hc rfl
      | cons e more => exact hslash e more hc rfl
    rw [unclosed, if_neg hquote, if_neg hne]
    exact ih h
  all_goals contradiction

private theorem unclosed_drop_wholeDigits (cs : List Char) :
    unclosed .outside (cs.drop (wholeDigits cs).length) = unclosed .outside cs := by
  unfold wholeDigits
  split
  · exact (unclosed_cons (by decide) _).symm
  · have hdrop : (cs.takeWhile Char.isDigit ++ cs.dropWhile Char.isDigit).drop
        (cs.takeWhile Char.isDigit).length = cs.dropWhile Char.isDigit := List.drop_left
    rw [List.takeWhile_append_dropWhile] at hdrop
    rw [hdrop, unclosed_dropWhile fun _ => inert_of_isDigit]

private theorem unclosed_of_fraction? {cs places rest : List Char}
    (h : fraction? cs = some (places, rest)) : unclosed .outside cs = unclosed .outside rest := by
  unfold fraction? at h
  split at h
  · split at h
    · cases h
    · cases h
      rw [unclosed_cons (by decide), unclosed_dropWhile fun _ => inert_of_isDigit]
  · cases h

private theorem unclosed_of_exponent? {cs rest : List Char} {e : Int}
    (h : exponent? cs = some (e, rest)) : unclosed .outside cs = unclosed .outside rest := by
  unfold exponent? at h
  split at h
  · split at h
    · next c more hc =>
      have hinert : Inert c := by
        apply inert_of_isBare
        rcases Bool.or_eq_true_iff.mp hc with hc | hc <;> rw [beq_iff_eq.mp hc] <;> decide
      split at h
      next negative digits hsign =>
      have hdigits : unclosed .outside more = unclosed .outside digits := by
        split at hsign <;> cases hsign
        · exact unclosed_cons (by decide) _
        · exact unclosed_cons (by decide) _
        · rfl
      split at h
      · cases h
      · cases h
        rw [unclosed_cons hinert, hdigits, unclosed_dropWhile fun _ => inert_of_isDigit]
    · cases h
  · cases h

private theorem unclosed_of_afterWhole {negative : Bool} {whole cs rest : List Char} {d : Datum}
    (h : afterWhole negative whole cs = .ok (d, rest)) :
    unclosed .outside cs = unclosed .outside rest := by
  have hfraction : unclosed .outside (((fraction? cs).map (·.2)).getD cs) = unclosed .outside cs := by
    cases hf : fraction? cs with
    | none => rfl
    | some found => exact (unclosed_of_fraction? hf).symm
  have hexponent (cs : List Char) :
      unclosed .outside (((exponent? cs).map (·.2)).getD cs) = unclosed .outside cs := by
    cases he : exponent? cs with
    | none => rfl
    | some found => exact (unclosed_of_exponent? he).symm
  unfold afterWhole at h
  dsimp only at h
  split at h
  · split at h
    · cases h
    · cases h
      rw [hexponent, hfraction]
  · cases h
    rw [hexponent, hfraction]

private theorem unclosed_of_number {cs rest : List Char} {d : Datum}
    (h : number cs = .ok (d, rest)) : unclosed .outside cs = unclosed .outside rest := by
  unfold number at h
  split at h
  next negative body hsign =>
  have hbody : unclosed .outside cs = unclosed .outside body := by
    split at hsign <;> cases hsign
    · exact unclosed_cons (by decide) _
    · rfl
  dsimp only at h
  split at h
  · cases h
  · rw [hbody, ← unclosed_drop_wholeDigits, unclosed_of_afterWhole h]

/-- What is read with some fuel closes the brackets that it opens: a value all of them, and what is
read of a list or a mapping after its first bracket one more. -/
private structure Closes (fuel : Nat) : Prop where
  value : ∀ {room : Room} {cs rest : List Char} {d : Datum}, Json.value fuel room cs = .ok (d, rest) →
    unclosed .outside cs = unclosed .outside rest
  members : ∀ {room : Room} {done : Entries Datum} {cs rest : List Char} {d : Datum},
    Json.members fuel room done cs = .ok (d, rest) →
      unclosed .outside cs = unclosed .outside rest - 1
  elements : ∀ {room : Room} {done : List Datum} {cs rest : List Char} {d : Datum},
    Json.elements fuel room done cs = .ok (d, rest) →
      unclosed .outside cs = unclosed .outside rest - 1

variable {room : Room}

private theorem Closes.value_succ {fuel : Nat} (ih : Closes fuel) {cs rest : List Char} {d : Datum}
    (h : Json.value (fuel + 1) room cs = .ok (d, rest)) :
    unclosed .outside cs = unclosed .outside rest := by
  unfold Json.value at h
  split at h
  · split at h
    · next hbody =>
      cases h
      exact unclosed_of_textBody hbody
    · cases h
  · next more =>
    have hopen : unclosed .outside ('\x7b' :: more) = 1 + unclosed .outside (skipBlank more) := by
      rw [unclosed_skipBlank]
      rfl
    split at h
    · cases h
    · split at h
      · next hskip =>
        cases h
        rw [hopen, hskip]
        show 1 + (-1 + unclosed .outside rest) = unclosed .outside rest
        omega
      · have hrest := ih.members h
        omega
  · next more =>
    have hopen : unclosed .outside ('[' :: more) = 1 + unclosed .outside (skipBlank more) := by
      rw [unclosed_skipBlank]
      rfl
    split at h
    · cases h
    · split at h
      · next hskip =>
        cases h
        rw [hopen, hskip]
        show 1 + (-1 + unclosed .outside rest) = unclosed .outside rest
        omega
      · have hrest := ih.elements h
        omega
  all_goals first
    | exact unclosed_of_number h
    | cases h
      simp [unclosed, opening]

private theorem Closes.members_succ {fuel : Nat} (ih : Closes fuel) {done : Entries Datum}
    {cs rest : List Char} {d : Datum} (h : Json.members (fuel + 1) room done cs = .ok (d, rest)) :
    unclosed .outside cs = unclosed .outside rest - 1 := by
  unfold Json.members at h
  split at h
  · next more =>
    split at h
    · cases h
    · next name afterName hname =>
      have hquote : unclosed .outside ('"' :: more) = unclosed .outside (skipBlank afterName) := by
        rw [unclosed_skipBlank]
        exact unclosed_of_textBody hname
      split at h
      · next afterColon hcolon =>
        have hvalue : unclosed .outside (skipBlank afterName) =
            unclosed .outside (skipBlank afterColon) := by
          rw [hcolon, unclosed_skipBlank]
          exact unclosed_cons (by decide) afterColon
        split at h
        · cases h
        · next d' afterValue hread =>
          have hafter := ih.value hread
          rw [← unclosed_skipBlank afterValue] at hafter
          rw [hquote, hvalue, hafter]
          dsimp only at h
          split at h
          · next hclose =>
            cases h
            rw [hclose]
            show -1 + unclosed .outside rest = unclosed .outside rest - 1
            omega
          · next afterComma hcomma =>
            rw [hcomma, unclosed_cons (by decide), ← unclosed_skipBlank afterComma]
            exact ih.members h
          · cases h
      · cases h
  · cases h

private theorem Closes.elements_succ {fuel : Nat} (ih : Closes fuel) {done : List Datum}
    {cs rest : List Char} {d : Datum} (h : Json.elements (fuel + 1) room done cs = .ok (d, rest)) :
    unclosed .outside cs = unclosed .outside rest - 1 := by
  unfold Json.elements at h
  split at h
  · cases h
  · next d' afterValue hread =>
    have hafter := ih.value hread
    rw [← unclosed_skipBlank afterValue] at hafter
    rw [hafter]
    split at h
    · next hclose =>
      cases h
      rw [hclose]
      show -1 + unclosed .outside rest = unclosed .outside rest - 1
      omega
    · next afterComma hcomma =>
      rw [hcomma, unclosed_cons (by decide), ← unclosed_skipBlank afterComma]
      exact ih.elements h
    · cases h

private theorem closes (fuel : Nat) : Closes fuel := by
  induction fuel with
  | zero =>
    constructor
    · intro room cs rest d h
      cases h
    · intro room done cs rest d h
      cases h
    · intro room done cs rest d h
      cases h
  | succ fuel ih => exact ⟨ih.value_succ, ih.members_succ, ih.elements_succ⟩

/-- A text that is read closes all brackets that it opens. -/
theorem unclosed_of_read {text : String} {d : Datum} (h : read text = .ok d) :
    unclosed .outside text.toList = 0 := by
  unfold read readWithin at h
  split at h
  · cases h
  · unfold readChars whole at h
    split at h
    · next hwhole =>
      split at hwhole
      · cases hwhole
      · next d' rest hvalue =>
        have hclosed := (closes _).value hvalue
        rw [unclosed_skipBlank] at hclosed
        split at hwhole
        · next hblank => rw [hclosed, ← unclosed_skipBlank, hblank, unclosed]
        · cases hwhole
    · cases h

/-! ### What was written where writing stops -/

/-- A text opens so many more brackets than it closes, whatever follows it. -/
def Opens (cs : List Char) (n : Int) : Prop :=
  ∀ rest, unclosed .outside (cs ++ rest) = n + unclosed .outside rest

namespace Opens

theorem nil : Opens [] 0 := fun _ => (Int.zero_add _).symm

theorem append {a b : List Char} {m n : Int} (ha : Opens a m) (hb : Opens b n) :
    Opens (a ++ b) (m + n) := by
  intro rest
  rw [List.append_assoc, ha, hb]
  omega

theorem cons {c : Char} (hc : c ≠ '"') {cs : List Char} {n : Int} (h : Opens cs n) :
    Opens (c :: cs) (opening c + n) := by
  intro rest
  rw [List.cons_append, unclosed, if_neg hc, h]
  omega

theorem of_inert {cs : List Char} (h : ∀ c ∈ cs, Inert c) : Opens cs 0 := by
  induction cs with
  | nil => exact nil
  | cons c cs ih =>
    obtain ⟨hc, hcs⟩ := List.forall_mem_cons.mp h
    intro rest
    rw [List.cons_append, unclosed_cons hc]
    exact ih hcs rest

end Opens

private theorem quoted_append_of_bare {cs : List Char} (h : ∀ c ∈ cs, isBare c = true)
    (rest : List Char) : unclosed .quoted (cs ++ rest) = unclosed .quoted rest := by
  induction cs with
  | nil => rfl
  | cons c cs ih =>
    obtain ⟨hc, hcs⟩ := List.forall_mem_cons.mp h
    have hslash : c ≠ '\\' := by
      rintro rfl
      exact absurd hc (by decide)
    rw [List.cons_append, unclosed, if_neg (inert_of_isBare hc).ne_quote, if_neg hslash]
    exact ih hcs

private theorem quoted_of_spelt {c : Char} {written : List Char} (h : Spelt c written)
    (cs : List Char) : unclosed .quoted (written ++ cs) = unclosed .quoted cs := by
  cases h with
  | letter => rfl
  | code hn => exact quoted_code hn cs
  | plain hquote hslash => rw [List.singleton_append, unclosed, if_neg hquote, if_neg hslash]

private theorem quoted_flatMap_escape (cs rest : List Char) :
    unclosed .quoted (cs.flatMap escape ++ '"' :: rest) = unclosed .outside rest := by
  induction cs with
  | nil => rfl
  | cons c cs ih => rw [List.flatMap_cons, List.append_assoc, quoted_of_spelt (spelt_escape c), ih]

private theorem opens_textChars (s : String) : Opens (textChars s) 0 := by
  intro rest
  rw [textChars_append, Int.zero_add]
  exact quoted_flatMap_escape s.toList rest

private theorem opens_scalarChars (s : Scalar) : Opens (scalarChars s) 0 := by
  by_cases hs : ∃ text, s = .text text
  · obtain ⟨text, rfl⟩ := hs
    exact opens_textChars text
  · apply Opens.of_inert
    intro c hc
    exact inert_of_isBare (bare_scalarChars (fun text he => hs ⟨text, he⟩) c hc)

/-- A complete draft opens `n` brackets more than it closes, and one that stopped at least `low`, if
it wrote anything. -/
private structure Tally (a : Draft) (n low : Int) : Prop where
  complete : a.fault = none → Opens a.written n
  stopped : a.fault ≠ none → a.written = [] ∨ ∃ m, low ≤ m ∧ Opens a.written m

namespace Tally

variable {a b : Draft} {n n' low low' : Int}

private theorem ofChars {cs : List Char} (h : Opens cs n) : Tally (.ofChars cs) n low where
  complete _ := h
  stopped hfault := absurd rfl hfault

private theorem stop (fault : WriteFault) : Tally (.stop fault) n low where
  complete hfault := by cases hfault
  stopped _ := .inl rfl

/-- What is written after complete text adds to it. -/
private theorem append (ha : Tally a n low) (hb : Tally b n' low') (h : low ≤ n)
    (h' : low ≤ n + low') : Tally (a ++ b) (n + n') low := by
  obtain ⟨as, fault⟩ := a
  cases fault with
  | some fault => exact ⟨fun hnone => (by cases hnone), ha.stopped⟩
  | none =>
    have has := ha.complete rfl
    constructor
    · intro hfault
      exact has.append (hb.complete hfault)
    · intro hfault
      right
      show ∃ m, low ≤ m ∧ Opens (as ++ b.written) m
      rcases hb.stopped hfault with hnothing | ⟨m, hm, hopens⟩
      · exact ⟨n, h, by rwa [hnothing, List.append_nil]⟩
      · exact ⟨n + m, by omega, has.append hopens⟩

end Tally

private theorem tally_leadDraft {before : List Char} {n low : Int} (h : Opens before n) (d : Datum) :
    Tally (leadDraft before d) n low := by
  rcases leadDraft_cases before d with hlead | ⟨hlead, -⟩
  · rw [hlead]
    exact .ofChars h
  · rw [hlead]
    exact .stop _

private theorem opens_colon : Opens [':', ' '] 0 := (Opens.nil.cons (by decide)).cons (by decide)

private theorem tally_keyDraft (k : Key) (low : Int) : Tally (keyDraft k) 0 low := by
  unfold keyDraft
  split
  · exact .ofChars (opens_textChars _)
  · next s hs =>
    split
    · exact .stop _
    · apply Tally.ofChars
      intro rest
      have hbare := bare_scalarChars hs
      rw [List.cons_append, List.append_assoc, Int.zero_add]
      exact quoted_append_of_bare hbare ('"' :: rest)
  · exact .stop _

section Draft

variable {layout : Layout} (hl : layout.Blank)
include hl

private theorem opens_break (depth : Nat) : Opens (layout.break depth) 0 := by
  apply Opens.of_inert
  intro c hc
  rcases hl depth c hc with rfl | rfl <;> decide

private theorem opens_comma (depth : Nat) : Opens (layout.comma depth) 0 := by
  unfold Layout.comma
  split
  · exact (Opens.nil.cons (by decide)).cons (by decide)
  · exact (opens_break hl depth).cons (by decide)

private theorem tally_itemsDraft {items : List Datum}
    (h : ∀ d ∈ items, ∀ depth, Tally (draft layout depth d) 0 1) (depth : Nat) :
    Tally (itemsDraft layout depth items) (-1) 0 := by
  induction items with
  | nil => exact .ofChars ((opens_break hl depth).append (Opens.nil.cons (by decide)))
  | cons d ds ih =>
    obtain ⟨hd, hds⟩ := List.forall_mem_cons.mp h
    have hcomma : Tally (leadDraft (layout.comma (depth + 1)) d) 0 0 :=
      tally_leadDraft (opens_comma hl (depth + 1)) d
    rw [itemsDraft]
    exact (hcomma.append (hd (depth + 1)) (by decide) (by decide)).append (ih hds) (by decide)
      (by decide)

private theorem tally_entriesDraft {es : Entries Datum}
    (h : ∀ e ∈ es, ∀ depth, Tally (draft layout depth e.2) 0 1) (depth : Nat) :
    Tally (entriesDraft layout depth es) (-1) 0 := by
  induction es with
  | nil => exact .ofChars ((opens_break hl depth).append (Opens.nil.cons (by decide)))
  | cons e es ih =>
    obtain ⟨k, d⟩ := e
    obtain ⟨hd, hes⟩ := List.forall_mem_cons.mp h
    have hcolon : Tally (.ofChars [':', ' ']) 0 0 := .ofChars opens_colon
    have hrest {a : Draft} (ha : Tally a 0 0) :
        Tally (a ++ .ofChars [':', ' '] ++ draft layout (depth + 1) d ++
          entriesDraft layout depth es) (-1) 0 :=
      ((ha.append hcolon (by decide) (by decide)).append (hd (depth + 1)) (by decide)
        (by decide)).append (ih hes) (by decide) (by decide)
    rw [entriesDraft]
    apply hrest
    split
    · exact .stop _
    · exact (Tally.ofChars (opens_comma hl (depth + 1))).append (tally_keyDraft k 0) (by decide)
        (by decide)

/-- A datum opens as many brackets as it closes, or more where writing stops. -/
private theorem tally_draft (d : Datum) (depth : Nat) : Tally (draft layout depth d) 0 1 := by
  induction d using Datum.induction generalizing depth with
  | atom a =>
    cases a with
    | scalar s =>
      rw [draft]
      unfold scalarDraft
      split
      · exact .stop _
      · exact .ofChars (opens_scalarChars s)
    | _ => exact .stop _
  | loop c => cases c <;> exact .stop _
  | sequence fixed items ih =>
    cases items with
    | nil => exact .ofChars ((Opens.nil.cons (by decide)).cons (by decide))
    | cons d ds =>
      obtain ⟨hd, hds⟩ := List.forall_mem_cons.mp ih
      have hopen : Tally (leadDraft ('[' :: layout.break (depth + 1)) d) 1 1 :=
        tally_leadDraft ((opens_break hl (depth + 1)).cons (by decide)) d
      rw [draft]
      exact (hopen.append (hd (depth + 1)) (by decide) (by decide)).append
        (tally_itemsDraft hl hds depth) (by decide) (by decide)
  | mapping fixed es ih =>
    cases fixed with
    | true => exact .stop _
    | false =>
      cases es with
      | nil => exact .ofChars ((Opens.nil.cons (by decide)).cons (by decide))
      | cons e es =>
        obtain ⟨k, d⟩ := e
        obtain ⟨hd, hes⟩ := List.forall_mem_cons.mp ih
        have hopen : Tally (.ofChars ('\x7b' :: layout.break (depth + 1))) 1 1 :=
          .ofChars ((opens_break hl (depth + 1)).cons (by decide))
        have hcolon : Tally (.ofChars [':', ' ']) 0 0 := .ofChars opens_colon
        have hname := (hopen.append (tally_keyDraft k 0) (by decide) (by decide)).append hcolon
          (by decide) (by decide)
        rw [draft]
        exact (hname.append (hd (depth + 1)) (by decide) (by decide)).append
          (tally_entriesDraft hl hes depth) (by decide) (by decide)

end Draft

private theorem read_nil : ∃ fault, read (String.ofList []) = .error fault := ⟨_, rfl⟩

/-- What was written where writing stopped is not read. -/
theorem exists_error_of_stopped {d : Datum} {n : Int} {fault : WriteFault}
    (h : (draft (.ofSpaces n) 0 d).fault = some fault) :
    ∃ e, read (String.ofList (draft (.ofSpaces n) 0 d).written) = .error e := by
  have hstopped := (tally_draft (Layout.blank_ofSpaces n) d 0).stopped (by simp [h])
  rcases hstopped with hnothing | ⟨m, hm, hopens⟩
  · rw [hnothing]
    exact read_nil
  · cases hread : read (String.ofList (draft (.ofSpaces n) 0 d).written) with
    | error e => exact ⟨e, rfl⟩
    | ok found =>
      have hclosed := unclosed_of_read hread
      have hopen := hopens []
      rw [List.append_nil, unclosed] at hopen
      rw [String.toList_ofList, hopen] at hclosed
      omega

end Json

end Groundplan
