import Groundplan.Json.Parser
import Groundplan.Json.Printer

/-!
# Texts in quotes read back

Every character is written as itself, as a letter after a backslash or as four hexadecimal digits, and
each of the three is read as that character whatever text follows it.
-/

namespace Groundplan.Json

/-- The three ways in which a character stands in a text in quotes. -/
inductive Spelt (c : Char) : List Char → Prop
  | letter {e : Char} (hu : e ≠ 'u') (he : unescape? e = some c) : Spelt c ['\\', e]
  | code {p q r s : Char} {n : Nat} (hn : hex4? p q r s = some n)
      (hs : Text.isHighSurrogate n = false) (hc : Text.charOf n = c) :
      Spelt c ['\\', 'u', p, q, r, s]
  | plain (hquote : c ≠ '"') (hslash : c ≠ '\\') (hc : ¬ c.toNat < 0x20) : Spelt c [c]

/-- Whether the code of a control character is read back from its four digits. -/
private def codeReadsBack (n : Nat) : Bool :=
  match Text.hexDigits 4 n with
  | [p, q, r, s] =>
      hex4? p q r s == some n && !Text.isHighSurrogate n && Text.charOf n == Char.ofNat n
  | _ => false

private theorem spelt_code {n : Nat} (hn : n < 0x20) :
    ∃ p q r s, Text.hexDigits 4 n = [p, q, r, s] ∧ hex4? p q r s = some n ∧
      Text.isHighSurrogate n = false ∧ Text.charOf n = Char.ofNat n := by
  have hcodes : ∀ n < 0x20, codeReadsBack n = true := by decide +kernel
  have h := hcodes n hn
  unfold codeReadsBack at h
  split at h
  · next p q r s heq =>
    simp only [Bool.and_eq_true, beq_iff_eq, Bool.not_eq_true'] at h
    exact ⟨p, q, r, s, heq, h.1.1, h.1.2, h.2⟩
  · cases h

/-- What is written for a character spells it. -/
theorem spelt_escape (c : Char) : Spelt c (escape c) := by
  unfold escape
  split
  · next h =>
    obtain rfl := beq_iff_eq.mp h
    exact .letter (by decide) rfl
  split
  · next h =>
    obtain rfl := beq_iff_eq.mp h
    exact .letter (by decide) rfl
  split
  · next h =>
    obtain rfl := beq_iff_eq.mp h
    exact .letter (by decide) rfl
  split
  · next h =>
    obtain rfl := beq_iff_eq.mp h
    exact .letter (by decide) rfl
  split
  · next h =>
    obtain rfl := beq_iff_eq.mp h
    exact .letter (by decide) rfl
  split
  · next h =>
    obtain rfl : c = '\x08' := Char.ext (UInt32.toNat_inj.mp (beq_iff_eq.mp h))
    exact .letter (by decide) rfl
  split
  · next h =>
    obtain rfl : c = '\x0c' := Char.ext (UInt32.toNat_inj.mp (beq_iff_eq.mp h))
    exact .letter (by decide) rfl
  split
  · next h =>
    obtain ⟨p, q, r, s, heq, hn, hs, hc⟩ := spelt_code h
    rw [Char.ofNat_toNat] at hc
    exact heq ▸ .code hn hs hc
  · next hquote hslash _ _ _ _ _ hc =>
    exact .plain (by simpa using hquote) (by simpa using hslash) hc

/-- What may stand after a character: not nothing, and no backslash with a `u` but digits after it. -/
private def Follows (cs : List Char) : Prop :=
  cs ≠ [] ∧ ∀ p q r s more, cs = '\\' :: 'u' :: p :: q :: r :: s :: more → (hex4? p q r s).isSome

private theorem follows_append {c : Char} {cs : List Char} (h : Spelt c cs) (rest : List Char) :
    Follows (cs ++ rest) := by
  cases h with
  | letter hu _ =>
    refine ⟨by simp, ?_⟩
    rintro p q r s more ⟨⟩
    exact absurd rfl hu
  | code hn _ _ =>
    refine ⟨by simp, ?_⟩
    rintro p q r s more ⟨⟩
    simp [hn]
  | plain _ hslash _ =>
    refine ⟨by simp, ?_⟩
    rintro p q r s more ⟨⟩
    exact absurd rfl hslash

private theorem follows_flatMap_escape (cs rest : List Char) :
    Follows (cs.flatMap escape ++ '"' :: rest) := by
  cases cs with
  | nil => exact ⟨by simp, by simp⟩
  | cons c cs =>
    rw [List.flatMap_cons, List.append_assoc]
    exact follows_append (spelt_escape c) _

variable (opened : Nat) (done : List Char)

private theorem textBody_code {p q r s : Char} {n : Nat} (hn : hex4? p q r s = some n)
    (hs : Text.isHighSurrogate n = false) {rest : List Char} (hrest : Follows rest) :
    textBody opened done ('\\' :: 'u' :: p :: q :: r :: s :: rest) =
      textBody opened (Text.charOf n :: done) rest := by
  obtain ⟨hne, hcode⟩ := hrest
  rw [textBody, hn]
  dsimp only
  split
  · exact absurd rfl hne
  · next a b c d more =>
    obtain ⟨m, hm⟩ := Option.isSome_iff_exists.mp (hcode a b c d more rfl)
    simp only [hm, hs, Bool.false_and, Bool.false_eq_true, ↓reduceIte]
  · rfl

private theorem textBody_spelt {c : Char} {cs : List Char} (h : Spelt c cs) {rest : List Char}
    (hrest : Follows rest) : textBody opened done (cs ++ rest) = textBody opened (c :: done) rest := by
  cases h with
  | letter hu he =>
    rw [List.cons_append, List.cons_append, List.nil_append,
      textBody.eq_6 _ _ _ _ (fun _ _ _ _ _ h => absurd h hu) hu, he]
  | code hn hs hc =>
    subst hc
    exact textBody_code opened done hn hs hrest
  | plain hquote hslash hc =>
    rw [List.cons_append, List.nil_append, textBody, if_neg hc]
    all_goals simp [hquote, hslash]

/-- The characters of a text, written, are read up to the closing quote. -/
theorem textBody_flatMap_escape (cs rest : List Char) :
    textBody opened done (cs.flatMap escape ++ '"' :: rest) = .ok (done.reverse ++ cs, rest) := by
  induction cs generalizing done with
  | nil => simp [textBody]
  | cons c cs ih =>
    rw [List.flatMap_cons, List.append_assoc,
      textBody_spelt opened done (spelt_escape c) (follows_flatMap_escape cs rest), ih]
    simp

end Groundplan.Json
