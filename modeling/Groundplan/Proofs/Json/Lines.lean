import Groundplan.Proofs.Json.RoundTrip

/-!
# Lines of JSON text

A line of JSON text ends in a line break and in nothing else: a carriage return is written as two
characters, and no number, name or blank has one. So the text of a file is the text that was written
to it, and what was written is read back also with a line break after it.
-/

namespace Groundplan

namespace Json

/-! ### Scalars that are no texts -/

/-- A letter, a digit, a sign or a point. -/
def isBare (c : Char) : Bool := c.isAlphanum || c == '-' || c == '+' || c == '.'

/-- A digit is bare. -/
theorem isBare_of_isDigit {c : Char} (h : c.isDigit = true) : isBare c = true := by
  simp [isBare, Char.isAlphanum, h]

private theorem bare_toDigits (n : Nat) : ∀ c ∈ Nat.toDigits 10 n, isBare c = true :=
  fun _ hc => isBare_of_isDigit (Nat.isDigit_of_mem_toDigits (by decide) (by decide) hc)

private theorem bare_intChars (i : Int) : ∀ c ∈ intChars i, isBare c = true := by
  have h := bare_toDigits i.natAbs
  unfold intChars
  split
  · exact List.forall_mem_cons.mpr ⟨by decide, h⟩
  · exact h

private theorem bare_exponentChars (e : Int) : ∀ c ∈ Decimal.exponentChars e, isBare c = true := by
  have h := bare_toDigits e.natAbs
  unfold Decimal.exponentChars
  dsimp only
  rw [List.forall_mem_cons]
  constructor
  · split <;> decide
  · split
    · exact List.forall_mem_cons.mpr ⟨by decide, h⟩
    · exact h

private theorem bare_significant (d : Decimal) : ∀ c ∈ d.significant.1, isBare c = true := by
  intro c hc
  apply bare_toDigits d.digits
  have hall : c ∈ (Nat.toDigits 10 d.digits).reverse :=
    (List.dropWhile_sublist _).subset (List.mem_reverse.mp hc)
  exact List.mem_reverse.mp hall

private theorem bare_decimalChars (d : Decimal) : ∀ c ∈ d.chars, isBare c = true := by
  have h := bare_significant d
  unfold Decimal.chars
  generalize d.significant = found at h
  obtain ⟨digits, leading⟩ := found
  have hexponent := bare_exponentChars leading
  have hzeros (n : Nat) : ∀ c ∈ List.replicate n '0', isBare c = true := by
    intro c hc
    rw [List.eq_of_mem_replicate hc]
    decide
  have hpoint : isBare '.' = true := by decide
  have he : isBare 'e' = true := by decide
  have hzero : isBare '0' = true := by decide
  dsimp only at h ⊢
  split
  · split
    · simp only [List.forall_mem_cons, List.forall_mem_append]
      exact ⟨hzero, hpoint, hzeros _, h⟩
    · simp only [List.forall_mem_cons, List.forall_mem_append]
      refine ⟨⟨fun c hc => h c (List.mem_of_mem_take hc), hzeros _⟩, hpoint, ?_⟩
      split
      · exact hzeros 1
      · exact fun c hc => h c (List.mem_of_mem_drop hc)
  · split
    · exact hzeros 1
    · simp only [List.forall_mem_cons] at h ⊢
      exact ⟨h.1, he, hexponent⟩
    · simp only [List.forall_mem_cons, List.forall_mem_append] at h ⊢
      exact ⟨h.1, hpoint, h.2, he, hexponent⟩

/-- A scalar other than a text is written with letters, digits, signs and points. -/
theorem bare_scalarChars {s : Scalar} (hs : ∀ text, s ≠ .text text) :
    ∀ c ∈ scalarChars s, isBare c = true := by
  cases s with
  | null => exact List.all_eq_true.mp rfl
  | bool b => cases b <;> exact List.all_eq_true.mp rfl
  | int i => exact bare_intChars i
  | text s => exact absurd rfl (hs s)
  | float x =>
    rw [scalarChars]
    unfold Binary64.chars
    split
    · exact List.all_eq_true.mp rfl
    · next negative rank =>
      split
      · rw [List.forall_mem_append]
        constructor
        · cases negative <;> exact List.all_eq_true.mp rfl
        · split
          · exact List.all_eq_true.mp rfl
          · exact bare_decimalChars _
      · cases negative <;> exact List.all_eq_true.mp rfl

/-! ### No carriage returns -/

private theorem return_not_mem_escape (c : Char) : '\r' ∉ escape c := by
  have hcodes : ∀ n < 0x20, '\r' ∉ Text.hexDigits 4 n := by decide +kernel
  unfold escape
  split
  · decide
  split
  · decide
  split
  · decide
  split
  · decide
  next hreturn =>
  split
  · decide
  split
  · decide
  split
  · decide
  split
  · next h => simpa using hcodes _ h
  · exact fun hr => hreturn (beq_iff_eq.mpr (List.mem_singleton.mp hr).symm)

private theorem return_not_mem_textChars (s : String) : '\r' ∉ textChars s := by
  simp [textChars, return_not_mem_escape]

private theorem return_not_mem_scalarChars (s : Scalar) : '\r' ∉ scalarChars s := by
  by_cases hs : ∃ text, s = .text text
  · obtain ⟨text, rfl⟩ := hs
    exact return_not_mem_textChars text
  · intro hr
    exact absurd (bare_scalarChars (fun text he => hs ⟨text, he⟩) _ hr) (by decide)

private theorem return_not_mem_append {a b : Draft} (ha : '\r' ∉ a.written) (hb : '\r' ∉ b.written) :
    '\r' ∉ (a ++ b).written := by
  obtain ⟨cs, fault⟩ := a
  cases fault with
  | some fault => exact ha
  | none => exact fun hr => (List.mem_append.mp hr).elim ha hb

private theorem return_not_mem_leadDraft {before : List Char} (h : '\r' ∉ before) (d : Datum) :
    '\r' ∉ (leadDraft before d).written := by
  rcases leadDraft_cases before d with hlead | ⟨hlead, -⟩
  · rw [hlead]
    exact h
  · rw [hlead]
    exact List.not_mem_nil

private theorem return_not_mem_keyDraft (k : Key) : '\r' ∉ (keyDraft k).written := by
  unfold keyDraft
  split
  · exact return_not_mem_textChars _
  · next s _ =>
    split
    · exact List.not_mem_nil
    · have hs := return_not_mem_scalarChars s
      simp [Draft.ofChars, hs]
  · exact List.not_mem_nil

section Draft

variable {layout : Layout} (hl : layout.Blank)
include hl

private theorem return_not_mem_break (depth : Nat) : '\r' ∉ layout.break depth := by
  intro hr
  rcases hl depth _ hr with h | h <;> exact absurd h (by decide)

private theorem return_not_mem_comma (depth : Nat) : '\r' ∉ layout.comma depth := by
  have h := return_not_mem_break hl depth
  unfold Layout.comma
  split <;> simp [h]

private theorem return_not_mem_itemsDraft {items : List Datum}
    (h : ∀ d ∈ items, ∀ depth, '\r' ∉ (draft layout depth d).written) (depth : Nat) :
    '\r' ∉ (itemsDraft layout depth items).written := by
  induction items with
  | nil =>
    have hbreak := return_not_mem_break hl depth
    simp [itemsDraft, Draft.ofChars, hbreak]
  | cons d ds ih =>
    obtain ⟨hd, hds⟩ := List.forall_mem_cons.mp h
    rw [itemsDraft]
    have hcomma := return_not_mem_leadDraft (return_not_mem_comma hl (depth + 1)) d
    exact return_not_mem_append (return_not_mem_append hcomma (hd (depth + 1))) (ih hds)

private theorem return_not_mem_entriesDraft {es : Entries Datum}
    (h : ∀ e ∈ es, ∀ depth, '\r' ∉ (draft layout depth e.2).written) (depth : Nat) :
    '\r' ∉ (entriesDraft layout depth es).written := by
  induction es with
  | nil =>
    have hbreak := return_not_mem_break hl depth
    simp [entriesDraft, Draft.ofChars, hbreak]
  | cons e es ih =>
    obtain ⟨k, d⟩ := e
    obtain ⟨hd, hes⟩ := List.forall_mem_cons.mp h
    have hcolon : '\r' ∉ (Draft.ofChars [':', ' ']).written := by decide
    rw [entriesDraft]
    refine return_not_mem_append
      (return_not_mem_append (return_not_mem_append ?_ hcolon) (hd (depth + 1))) (ih hes)
    split
    · exact List.not_mem_nil
    · exact return_not_mem_append (return_not_mem_comma hl (depth + 1)) (return_not_mem_keyDraft k)

/-- No carriage return is written. -/
theorem return_not_mem_draft (d : Datum) (depth : Nat) : '\r' ∉ (draft layout depth d).written := by
  induction d using Datum.induction generalizing depth with
  | atom a =>
    cases a with
    | scalar s =>
      have hs := return_not_mem_scalarChars s
      rw [draft]
      unfold scalarDraft
      split
      · exact List.not_mem_nil
      · exact hs
    | _ => exact List.not_mem_nil
  | loop c => cases c <;> exact List.not_mem_nil
  | sequence fixed items ih =>
    cases items with
    | nil => simp [draft, Draft.ofChars]
    | cons d ds =>
      obtain ⟨hd, hds⟩ := List.forall_mem_cons.mp ih
      have hbreak := return_not_mem_break hl (depth + 1)
      have hopen : '\r' ∉ (leadDraft ('[' :: layout.break (depth + 1)) d).written :=
        return_not_mem_leadDraft (by simp [hbreak]) d
      rw [draft]
      exact return_not_mem_append (return_not_mem_append hopen (hd (depth + 1)))
        (return_not_mem_itemsDraft hl hds depth)
  | mapping fixed es ih =>
    cases fixed with
    | true => simp [draft, Draft.stop]
    | false =>
      cases es with
      | nil => simp [draft, Draft.ofChars]
      | cons e es =>
        obtain ⟨k, d⟩ := e
        obtain ⟨hd, hes⟩ := List.forall_mem_cons.mp ih
        have hopen : '\r' ∉ (Draft.ofChars ('\x7b' :: layout.break (depth + 1))).written := by
          simpa [Draft.ofChars] using return_not_mem_break hl (depth + 1)
        have hcolon : '\r' ∉ (Draft.ofChars [':', ' ']).written := by decide
        rw [draft]
        refine return_not_mem_append ?_ (return_not_mem_entriesDraft hl hes depth)
        refine return_not_mem_append ?_ (hd (depth + 1))
        exact return_not_mem_append (return_not_mem_append hopen (return_not_mem_keyDraft k)) hcolon

end Draft

/-- A JSON text has no carriage return. -/
theorem return_not_mem_print {d : Datum} {n : Int} {text : String}
    (h : print (.ofSpaces n) d = .ok text) : '\r' ∉ text.toList := by
  unfold print Draft.result at h
  split at h
  · cases h
  · cases h
    rw [String.toList_ofList]
    exact return_not_mem_draft (Layout.blank_ofSpaces n) d 0

end Json

end Groundplan
