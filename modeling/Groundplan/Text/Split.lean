/-!
# Splitting at a character

What stands before, between and after the places where a character stands. There is always at least
one part, and set between the character again the parts make up the text.
-/

namespace Groundplan.Text

/-- The parts of a list between the places where a character stands. -/
def splitChars (mark : Char) : List Char → List (List Char)
  | [] => [[]]
  | c :: rest =>
      if c = mark then [] :: splitChars mark rest
      else
        match splitChars mark rest with
        | [] => [[c]]
        | part :: parts => (c :: part) :: parts

/-- The parts of a text between the places where a character stands. -/
def split (mark : Char) (s : String) : List String := (splitChars mark s.toList).map String.ofList

/-- There is always a first part. -/
theorem splitChars_ne_nil (mark : Char) (cs : List Char) : splitChars mark cs ≠ [] := by
  cases cs with
  | nil => simp [splitChars]
  | cons c rest =>
    simp only [splitChars]
    split
    · simp
    · split <;> simp

/-- No part has the character in it. -/
theorem not_mem_of_mem_splitChars {mark : Char} {cs part : List Char}
    (h : part ∈ splitChars mark cs) : mark ∉ part := by
  induction cs generalizing part with
  | nil => simp_all [splitChars]
  | cons c rest ih =>
    simp only [splitChars] at h
    split at h
    · rcases List.mem_cons.1 h with h | h
      · simp [h]
      · exact ih h
    · next hc =>
      split at h
      · simp_all [Ne.symm hc]
      · next first parts hs =>
        rcases List.mem_cons.1 h with h | h
        · subst h
          have hfirst : first ∈ splitChars mark rest := by simp [hs]
          simp [Ne.symm hc, ih hfirst]
        · exact ih (by simp [hs, h])

end Groundplan.Text
