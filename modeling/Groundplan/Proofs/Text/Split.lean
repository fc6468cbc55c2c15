import Groundplan.Text.Split

/-!
# Splitting undoes joining

A text is split into the parts that stand between the marks in it: each part is free of the mark, and
parts that are free of it are found again in their text with marks between them.
-/

namespace Groundplan.Text

variable {mark : Char}

/-- What stands on either side of a mark is split by itself. -/
theorem splitChars_append (mark : Char) (as bs : List Char) :
    splitChars mark (as ++ mark :: bs) = splitChars mark as ++ splitChars mark bs := by
  induction as with
  | nil => simp [splitChars]
  | cons c as ih =>
    rw [List.cons_append, splitChars, splitChars, ih]
    split
    · rfl
    · cases hparts : splitChars mark as with
      | nil => exact absurd hparts (splitChars_ne_nil mark as)
      | cons part parts => rfl

/-- What has no mark in it is one part. -/
theorem splitChars_of_not_mem {cs : List Char} (h : mark ∉ cs) : splitChars mark cs = [cs] := by
  induction cs with
  | nil => rfl
  | cons c cs ih =>
    rw [List.mem_cons, not_or] at h
    rw [splitChars, if_neg (Ne.symm h.1), ih h.2]

/-- What has no mark in it and comes after a list lengthens the last part of the list. -/
theorem splitChars_append_of_not_mem {as bs last : List Char} {parts : List (List Char)}
    (h : mark ∉ bs) (has : splitChars mark as = parts ++ [last]) :
    splitChars mark (as ++ bs) = parts ++ [last ++ bs] := by
  induction as generalizing parts last with
  | nil =>
    obtain ⟨rfl, rfl⟩ : parts = [] ∧ last = [] := by
      cases parts <;> simp [splitChars] at has ⊢
      exact has
    exact splitChars_of_not_mem h
  | cons c as ih =>
    rw [splitChars] at has
    rw [List.cons_append, splitChars]
    split at has
    · next hc =>
      rw [if_pos hc]
      cases parts with
      | nil => exact absurd (List.cons.inj has).2 (splitChars_ne_nil mark as)
      | cons part parts =>
        obtain ⟨rfl, hrest⟩ := List.cons.inj has
        rw [ih hrest]
        rfl
    · next hc =>
      rw [if_neg hc]
      cases hparts : splitChars mark as with
      | nil => exact absurd hparts (splitChars_ne_nil mark as)
      | cons part rest =>
        rw [hparts] at has
        dsimp only at has
        cases parts with
        | nil =>
          obtain ⟨rfl, rfl⟩ := List.cons.inj has
          have hone : splitChars mark (as ++ bs) = [] ++ [part ++ bs] := ih hparts
          rw [hone]
          rfl
        | cons first parts =>
          obtain ⟨rfl, rfl⟩ := List.cons.inj has
          have hmore : splitChars mark (as ++ bs) = (part :: parts) ++ [last ++ bs] := ih hparts
          rw [hmore]
          rfl

/-- No part of a text has the mark in it. -/
theorem not_mem_of_mem_split {s part : String} (h : part ∈ split mark s) : mark ∉ part.toList := by
  obtain ⟨cs, hcs, rfl⟩ := List.mem_map.mp h
  rw [String.toList_ofList]
  exact not_mem_of_mem_splitChars hcs

/-- A character other than the mark is in one of the parts, and what is in a part is in the list. -/
private theorem mem_iff_mem_splitChars {c : Char} (hne : c ≠ mark) (cs : List Char) :
    c ∈ cs ↔ ∃ part ∈ splitChars mark cs, c ∈ part := by
  induction cs with
  | nil => simp [splitChars]
  | cons d cs ih =>
    rw [splitChars, List.mem_cons, ih]
    split
    · next hd => simp [hd, hne]
    · cases hparts : splitChars mark cs with
      | nil => exact absurd hparts (splitChars_ne_nil mark cs)
      | cons part parts => simp [or_assoc]

/-- A character other than the mark is in a text just if it is in one of the parts. -/
theorem mem_iff_mem_split {c : Char} (hne : c ≠ mark) (s : String) :
    c ∈ s.toList ↔ ∃ part ∈ split mark s, c ∈ part.toList := by
  rw [mem_iff_mem_splitChars hne, split]
  constructor
  · rintro ⟨part, hpart, hc⟩
    exact ⟨_, List.mem_map_of_mem hpart, by rwa [String.toList_ofList]⟩
  · rintro ⟨_, hmap, hc⟩
    obtain ⟨part, hpart, rfl⟩ := List.mem_map.mp hmap
    exact ⟨part, hpart, by rwa [String.toList_ofList] at hc⟩

/-- Texts on either side of a mark are split by themselves. -/
theorem split_append_mark (mark : Char) (s t : String) :
    split mark (s ++ String.singleton mark ++ t) = split mark s ++ split mark t := by
  have hchars : (s ++ String.singleton mark ++ t).toList = s.toList ++ mark :: t.toList := by
    rw [String.toList_append, String.toList_append, String.toList_singleton, List.append_assoc,
      List.singleton_append]
  rw [split, hchars, splitChars_append, List.map_append]
  rfl

/-- A text without the mark lengthens the last part of the text that it comes after. -/
theorem split_append_of_not_mem {s t last : String} {parts : List String} (h : mark ∉ t.toList)
    (hs : split mark s = parts ++ [last]) : split mark (s ++ t) = parts ++ [last ++ t] := by
  obtain ⟨before, after, hchars, rfl, hlast⟩ := List.map_eq_append_iff.mp hs
  obtain ⟨cs, rfl, rfl⟩ := List.map_eq_singleton_iff.mp hlast
  rw [split, String.toList_append, splitChars_append_of_not_mem h hchars, List.map_append,
    List.map_singleton, String.ofList_append, String.ofList_toList]

/-- A text without the mark is one part. -/
theorem split_of_not_mem {s : String} (h : mark ∉ s.toList) : split mark s = [s] := by
  rw [split, splitChars_of_not_mem h, List.map_singleton, String.ofList_toList]

/-- Parts without the mark are what their text with marks between them is split into. -/
theorem split_intercalate {parts : List String} (hne : parts ≠ [])
    (h : ∀ part ∈ parts, mark ∉ part.toList) :
    split mark ((String.singleton mark).intercalate parts) = parts := by
  induction parts with
  | nil => exact absurd rfl hne
  | cons part parts ih =>
    obtain ⟨hpart, hparts⟩ := List.forall_mem_cons.mp h
    by_cases hnil : parts = []
    · rw [hnil, String.intercalate_singleton, split_of_not_mem hpart]
    · rw [String.intercalate_cons_of_ne_nil hnil, split_append_mark, split_of_not_mem hpart,
        ih hnil hparts, List.singleton_append]

end Groundplan.Text
