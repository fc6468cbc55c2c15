import Groundplan.Files.TextFile

/-!
# Texts in files

The bytes that a text is written as are read as that text again, and as long as it has no carriage
return, its lines stay as they are. No text is longer than the bytes that it is read from.
-/

namespace Groundplan

namespace Text

/-- What a text is written as is read as that text. -/
theorem ofUtf8_utf8 (s : String) : ofUtf8 (utf8 s) = .ok s := by
  simp [ofUtf8, utf8, String.fromUTF8?, String.fromUTF8, String.toUTF8, s.isValidUTF8]

/-- A text has no more characters than the bytes that it is read from. -/
theorem length_le_of_ofUtf8 {bytes : List UInt8} {s : String} (h : ofUtf8 bytes = .ok s) :
    s.toList.length ≤ bytes.length := by
  have hsize (cs : List Char) : cs.length ≤ (String.ofList cs).utf8ByteSize := by
    induction cs with
    | nil => exact Nat.zero_le _
    | cons c cs ih =>
      have hpos := c.utf8Size_pos
      have hcons : String.ofList (c :: cs) = String.singleton c ++ String.ofList cs := by
        rw [← String.toList_inj]
        simp
      rw [hcons, String.utf8ByteSize_append, String.utf8ByteSize_singleton, List.length_cons]
      omega
  have hbytes : s.utf8ByteSize = bytes.length := by
    unfold ofUtf8 at h
    split at h
    · next t ht =>
      cases h
      unfold String.fromUTF8? at ht
      split at ht
      · cases ht
        simp [String.fromUTF8, String.utf8ByteSize, ByteArray.size]
      · cases ht
    · cases h
  rw [← hbytes, ← String.ofList_toList (s := s), String.toList_ofList]
  exact hsize s.toList

end Text

namespace FileTree

/-- Unifying lines makes a text no longer. -/
theorem length_unifyLines_le (cs : List Char) : (unifyLines cs).length ≤ cs.length := by
  fun_induction unifyLines cs <;> simp only [List.length_nil, List.length_cons] at * <;> omega

/-- Lines stay as they are where there is no carriage return. -/
theorem unifyLines_eq_self {cs : List Char} (h : '\r' ∉ cs) : unifyLines cs = cs := by
  fun_induction unifyLines cs with
  | case1 => rfl
  | case2 => simp at h
  | case3 => simp at h
  | case4 c rest _ _ ih => rw [ih (fun hm => h (List.mem_cons_of_mem _ hm))]

/-- The bytes of a text without carriage returns are read as that text. -/
theorem textOf_utf8 {s : String} (h : '\r' ∉ s.toList) : textOf (Text.utf8 s) = .ok s := by
  simp only [textOf, Text.ofUtf8_utf8, unifyLines_eq_self h, String.ofList_toList]

/-- The text of a file has no more characters than the file has bytes. -/
theorem length_le_of_textOf {bytes : List UInt8} {s : String} (h : textOf bytes = .ok s) :
    s.toList.length ≤ bytes.length := by
  unfold textOf at h
  split at h
  · next t ht =>
    cases h
    rw [String.toList_ofList]
    exact Nat.le_trans (length_unifyLines_le _) (Text.length_le_of_ofUtf8 ht)
  · cases h

end FileTree

end Groundplan
