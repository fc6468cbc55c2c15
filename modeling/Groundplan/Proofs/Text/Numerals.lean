import Groundplan.Text.Blank
import Groundplan.Text.Digits
import Mathlib.Data.List.TakeWhile
import Mathlib.Data.Nat.Digits.Lemmas

/-!
# Numerals

A numeral is a text of decimal digits, with any blanks around it. Each numeral consists of digits, but
not all digits are decimal: digits are read as a number exactly if they are a numeral.
-/

namespace Groundplan.Text

/-- But for the blanks around it, a text consists of decimal digits, not more than are read, and
stands for a number. -/
def Numeral (s : String) (n : Nat) : Prop :=
  ∃ ds : List Nat, ds ≠ [] ∧ ds.length ≤ digitLimit ∧
    (strip s).toList.map decimalValue? = ds.map some ∧ n = Nat.ofDigits 10 ds.reverse

private theorem decimalValue?_lt {c : Char} {d : Nat} (h : decimalValue? c = some d) : d < 10 := by
  obtain ⟨z, hz, rfl⟩ := Option.map_eq_some_iff.mp h
  have hrange := List.find?_some hz
  simp only [Bool.and_eq_true, decide_eq_true_eq] at hrange
  omega

private theorem foldl_eq_ofDigits (ds : List Nat) :
    (ds.map some).foldl (fun n d => 10 * n + d.getD 0) 0 = Nat.ofDigits 10 ds.reverse := by
  induction ds using List.reverseRecOn with
  | nil => rfl
  | append_singleton ds d ih =>
    rw [List.map_append, List.foldl_append, ih, List.reverse_append]
    simp only [List.map_cons, List.map_nil, List.foldl_cons, List.foldl_nil, List.reverse_singleton,
      List.singleton_append, Nat.ofDigits_cons, Option.getD_some]
    omega

/-- Decimal digits are read unless they are too many. -/
private theorem readDigits_of_decimal {cs : List Char} {ds : List Nat}
    (hds : cs.map decimalValue? = ds.map some) :
    readDigits cs =
      if ds.length > digitLimit then .error (.tooLong ds.length)
      else .ok (Nat.ofDigits 10 ds.reverse) := by
  have htake : (cs.map decimalValue?).takeWhile Option.isSome = ds.map some := by
    rw [hds, List.takeWhile_eq_self_iff]
    intro d hd
    obtain ⟨x, -, rfl⟩ := List.mem_map.mp hd
    rfl
  have hlength : ds.length = cs.length := by simpa using congrArg List.length hds.symm
  unfold readDigits
  simp only [htake, List.length_map, foldl_eq_ofDigits, hlength, lt_irrefl, if_false]

/-- Only decimal digits are read. -/
private theorem exists_decimal_of_readDigits {cs : List Char} {n : Nat} (h : readDigits cs = .ok n) :
    ∃ ds : List Nat, cs.map decimalValue? = ds.map some := by
  -- All characters are taken, since reading stops at the first that is no decimal digit.
  have hall : ¬((cs.map decimalValue?).takeWhile Option.isSome).length < cs.length := by
    intro hfew
    unfold readDigits at h
    simp only [hfew, if_true] at h
    split at h <;> cases h
  have htake : (cs.map decimalValue?).takeWhile Option.isSome = cs.map decimalValue? :=
    (List.takeWhile_prefix _).eq_of_length_le (by rw [List.length_map]; omega)
  refine ⟨(cs.map decimalValue?).map fun d => d.getD 0, ?_⟩
  rw [List.map_map]
  refine ((List.map_congr_left fun d hd => ?_).trans (List.map_id _)).symm
  obtain ⟨x, rfl⟩ := Option.isSome_iff_exists.mp (List.takeWhile_eq_self_iff.mp htake d hd)
  rfl

/-- Digits are read exactly if all of them are decimal and they are not too many. -/
private theorem readDigits_eq_ok {cs : List Char} {n : Nat} :
    readDigits cs = .ok n ↔
      ∃ ds : List Nat, ds.length ≤ digitLimit ∧ cs.map decimalValue? = ds.map some ∧
        n = Nat.ofDigits 10 ds.reverse := by
  constructor
  · intro h
    obtain ⟨ds, hds⟩ := exists_decimal_of_readDigits h
    rw [readDigits_of_decimal hds] at h
    split at h
    · cases h
    · next hlimit => exact ⟨ds, by omega, hds, (Except.ok.inj h).symm⟩
  · rintro ⟨ds, hlimit, hds, rfl⟩
    rw [readDigits_of_decimal hds, if_neg (by omega)]

/-- A numeral is a text of digits. -/
theorem Numeral.isDigits {s : String} {n : Nat} (h : Numeral s n) :
    isDigits (strip s) = true := by
  obtain ⟨ds, hne, -, hds, -⟩ := h
  have hall : (strip s).toList.all isDigit = true := by
    refine List.all_eq_true.mpr fun c hc => ?_
    have hmem : decimalValue? c ∈ ds.map some := hds ▸ List.mem_map_of_mem hc
    obtain ⟨d, -, hd⟩ := List.mem_map.mp hmem
    exact isDigit_of_decimalValue? hd.symm
  have hfilled : (strip s).isEmpty = false := by
    rw [Bool.eq_false_iff]
    intro hempty
    rw [String.isEmpty_iff.mp hempty] at hds
    exact hne (List.map_eq_nil_iff.mp hds.symm)
  rw [Text.isDigits, hfilled, hall]
  rfl

/-- A text of digits is a numeral exactly if it is read. -/
theorem numeral_iff {s : String} {n : Nat} (h : isDigits (strip s) = true) :
    Numeral s n ↔ readDigits (strip s).toList = .ok n := by
  rw [readDigits_eq_ok]
  refine exists_congr fun ds => and_iff_right_of_imp fun ⟨_, hds, _⟩ hnil => ?_
  subst hnil
  have hempty : (strip s).toList = [] := List.map_eq_nil_iff.mp hds
  rw [isDigits, String.isEmpty_iff.mpr (String.toList_eq_nil_iff.mp hempty)] at h
  cases h

/-- What a numeral stands for has not more digits than are read. -/
theorem Numeral.lt {s : String} {n : Nat} (h : Numeral s n) : n < 10 ^ digitLimit := by
  obtain ⟨ds, -, hlimit, hds, rfl⟩ := h
  refine Nat.lt_of_lt_of_le (Nat.ofDigits_lt_base_pow_length (by decide) fun d hd => ?_)
    (Nat.pow_le_pow_right (by decide) (by rwa [List.length_reverse]))
  have hmem : some d ∈ ds.map some := List.mem_map_of_mem (List.mem_reverse.mp hd)
  rw [← hds] at hmem
  obtain ⟨c, -, hc⟩ := List.mem_map.mp hmem
  exact decimalValue?_lt hc

end Groundplan.Text
