/-!
# Blank characters

The characters that count as white space in Unicode, together with the four information separators,
and what is left of a text when they are taken from both its ends. The zero-width space and the byte
order mark are not blank.
-/

namespace Groundplan.Text

/-- White space in Unicode, or an information separator. -/
def isBlank (c : Char) : Bool :=
  let n := c.toNat
  (9 ≤ n && n ≤ 13) || (28 ≤ n && n ≤ 32) || n == 0x85 || n == 0xA0 || n == 0x1680 ||
    (0x2000 ≤ n && n ≤ 0x200A) || n == 0x2028 || n == 0x2029 || n == 0x202F || n == 0x205F ||
    n == 0x3000

/-- A list without the blanks at its two ends. -/
def stripChars (cs : List Char) : List Char :=
  ((cs.dropWhile isBlank).reverse.dropWhile isBlank).reverse

/-- A text without the blanks at its two ends. -/
def strip (s : String) : String := String.ofList (stripChars s.toList)

/-- Nothing but blanks. -/
def isBlankText (s : String) : Bool := s.toList.all isBlank

/-- What is left of a text starts with something that is not blank. -/
theorem isBlank_head?_stripChars {cs : List Char} {c : Char}
    (hc : (stripChars cs).head? = some c) : isBlank c = false := by
  have hprefix : stripChars cs <+: cs.dropWhile isBlank := by
    have hsuffix := (List.dropWhile_suffix isBlank (l := (cs.dropWhile isBlank).reverse))
    simpa [stripChars] using List.reverse_prefix.mpr hsuffix
  have hhead : (cs.dropWhile isBlank).head? = some c := by
    obtain ⟨rest, hrest⟩ := hprefix
    rw [← hrest, List.head?_append, hc]
    rfl
  have hnot := List.head?_dropWhile_not isBlank cs
  rw [hhead] at hnot
  simpa using hnot

/-- What is left of a text ends with something that is not blank. -/
theorem isBlank_getLast?_stripChars {cs : List Char} {c : Char}
    (hc : (stripChars cs).getLast? = some c) : isBlank c = false := by
  have hnot := List.head?_dropWhile_not isBlank (cs.dropWhile isBlank).reverse
  rw [stripChars, List.getLast?_reverse] at hc
  rw [hc] at hnot
  simpa using hnot

/-- Nothing is taken from a list without blanks at its two ends. -/
theorem stripChars_eq_self {cs : List Char} (hhead : ∀ c ∈ cs.head?, isBlank c = false)
    (hlast : ∀ c ∈ cs.getLast?, isBlank c = false) : stripChars cs = cs := by
  have hkept {ds : List Char} (h : ∀ c ∈ ds.head?, isBlank c = false) :
      ds.dropWhile isBlank = ds := by
    cases ds with
    | nil => rfl
    | cons d ds => simp [h d rfl]
  rw [stripChars, hkept hhead, hkept (by simpa using hlast), List.reverse_reverse]

/-- There is nothing more to be taken from what is left of a text. -/
@[simp] theorem strip_strip (s : String) : strip (strip s) = strip s := by
  have hchars : stripChars (stripChars s.toList) = stripChars s.toList :=
    stripChars_eq_self (fun _ => isBlank_head?_stripChars) fun _ => isBlank_getLast?_stripChars
  rw [strip, strip, String.toList_ofList, hchars]

end Groundplan.Text
