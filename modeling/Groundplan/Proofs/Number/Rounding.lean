import Groundplan.Number.Decimal
import Mathlib.Algebra.Group.Nat.Defs

/-!
# Decimals that read back

The units of ranks increase strictly, and the rank of a whole number of units is found from it, so the
exact expansion of a number reads back as the number; so does the shortest decimal, which is only
taken if it does. Rounding depends on the value of a decimal alone: powers of ten may be moved between
digits and exponent.
-/

namespace Groundplan

namespace Binary64

private theorem binade_pos : 0 < binade := by decide

private theorem binade_eq : binade = 2 ^ 52 := rfl

private theorem units_eq (r : Nat) :
    units r = if r < binade then r else (binade + r % binade) * 2 ^ (r / binade - 1) := rfl

private theorem rankBelow_eq (u : Nat) :
    rankBelow u = if u < 2 * binade then u
      else (u.log2 - 52) * binade + u / 2 ^ (u.log2 - 52) := rfl

/-- The units of a rank with a leading bit of its own. -/
theorem units_mul_add {k m : Nat} (hm : m < binade) :
    units (binade * (k + 1) + m) = (binade + m) * 2 ^ k := by
  have hge : ¬ binade * (k + 1) + m < binade := by
    have hle := Nat.le_mul_of_pos_right binade (by omega : 0 < k + 1)
    omega
  have hmod : (binade * (k + 1) + m) % binade = m := by
    rw [Nat.mul_add_mod, Nat.mod_eq_of_lt hm]
  have hdiv : (binade * (k + 1) + m) / binade = k + 1 := by
    rw [Nat.mul_add_div binade_pos, Nat.div_eq_of_lt hm, Nat.add_zero]
  rw [units_eq, if_neg hge, hmod, hdiv, Nat.add_sub_cancel]

private theorem exists_mul_add {r : Nat} (hr : binade ≤ r) :
    ∃ k m, m < binade ∧ r = binade * (k + 1) + m := by
  refine ⟨r / binade - 1, r % binade, Nat.mod_lt r binade_pos, ?_⟩
  have hpos := Nat.div_pos hr binade_pos
  rw [Nat.sub_add_cancel hpos]
  exact (Nat.div_add_mod r binade).symm

/-- Each rank has more units than the one before. -/
theorem units_lt_units_succ (r : Nat) : units r < units (r + 1) := by
  rcases Nat.lt_or_ge r binade with hr | hr
  · rcases Nat.lt_or_ge (r + 1) binade with hs | hs
    · rw [units, units, if_pos hr, if_pos hs]
      exact Nat.lt_succ_self r
    · have he : r + 1 = binade * (0 + 1) + 0 := by omega
      rw [he, units_mul_add binade_pos, units, if_pos hr]
      omega
  · obtain ⟨k, m, hm, rfl⟩ := exists_mul_add hr
    have hpow : 0 < 2 ^ k := Nat.two_pow_pos k
    rcases Nat.lt_or_ge (m + 1) binade with hs | hs
    · rw [Nat.add_assoc, units_mul_add hm, units_mul_add hs]
      exact Nat.mul_lt_mul_of_pos_right (by omega) hpow
    · -- the last rank of a binade: the next one starts a binade twice as wide
      have he : binade * (k + 1) + m + 1 = binade * (k + 1 + 1) + 0 := by
        rw [Nat.mul_succ binade (k + 1)]
        omega
      rw [he, units_mul_add hm, units_mul_add binade_pos, Nat.pow_succ, Nat.add_zero,
        Nat.mul_comm (2 ^ k) 2, ← Nat.mul_assoc]
      exact Nat.mul_lt_mul_of_pos_right (by omega) hpow

/-- A higher rank has more units. -/
theorem units_lt_units {r s : Nat} (h : r < s) : units r < units s := by
  induction h with
  | refl => exact units_lt_units_succ r
  | step _ ih => exact Nat.lt_trans ih (units_lt_units_succ _)

private theorem log2_mul_two_pow {n : Nat} (s : Nat) (hlow : binade ≤ n) (hhigh : n < 2 * binade) :
    (n * 2 ^ s).log2 = 52 + s := by
  have hn : 0 < n := Nat.lt_of_lt_of_le binade_pos hlow
  have hpos : n * 2 ^ s ≠ 0 := Nat.mul_ne_zero (Nat.ne_of_gt hn) (Nat.ne_of_gt (Nat.two_pow_pos s))
  have hlow := Nat.mul_le_mul_right (2 ^ s) hlow
  have hhigh := Nat.mul_lt_mul_of_pos_right hhigh (Nat.two_pow_pos s)
  have htwo : 2 * binade = 2 ^ 53 := by decide
  rw [binade_eq, ← Nat.pow_add] at hlow
  rw [htwo, ← Nat.pow_add] at hhigh
  rw [Nat.log2_eq_iff hpos]
  have he : 52 + s + 1 = 53 + s := by omega
  exact ⟨hlow, he ▸ hhigh⟩

/-- The rank of the units of a rank is that rank. -/
theorem rankBelow_units (r : Nat) : rankBelow (units r) = r := by
  rcases Nat.lt_or_ge r binade with hr | hr
  · rw [units, if_pos hr, rankBelow, if_pos (by omega)]
  · obtain ⟨k, m, hm, rfl⟩ := exists_mul_add hr
    rw [units_mul_add hm]
    cases k with
    | zero =>
      rw [Nat.pow_zero, Nat.mul_one, rankBelow, if_pos (by omega)]
      omega
    | succ k =>
      have hpow : 0 < 2 ^ k := Nat.two_pow_pos k
      have hlarge : ¬ (binade + m) * 2 ^ (k + 1) < 2 * binade := by
        rw [Nat.pow_succ, Nat.mul_comm (2 ^ k) 2, ← Nat.mul_assoc, Nat.not_lt]
        calc 2 * binade ≤ (binade + m) * 2 := by omega
          _ ≤ (binade + m) * 2 * 2 ^ k := Nat.le_mul_of_pos_right _ hpow
      have hlog := log2_mul_two_pow (k + 1) (Nat.le_add_right binade m) (by omega)
      rw [rankBelow_eq, if_neg hlarge, hlog, Nat.add_sub_cancel_left,
        Nat.mul_div_cancel _ (Nat.two_pow_pos (k + 1)), Nat.mul_succ binade (k + 1),
        Nat.mul_comm (k + 1) binade]
      omega

private theorem compare_mul_right {a b c : Nat} (hc : 0 < c) :
    compare (a * c) (b * c) = compare a b := by
  rcases Nat.lt_trichotomy a b with h | rfl | h
  · rw [Nat.compare_eq_lt.mpr h, Nat.compare_eq_lt.mpr (Nat.mul_lt_mul_of_pos_right h hc)]
  · rw [Nat.compare_eq_eq.mpr rfl, Nat.compare_eq_eq.mpr rfl]
  · rw [Nat.compare_eq_gt.mpr h, Nat.compare_eq_gt.mpr (Nat.mul_lt_mul_of_pos_right h hc)]

/-- Rounding a quotient does not depend on a common factor. -/
theorem nearestRank_mul {c : Nat} (hc : 0 < c) (n d : Nat) :
    nearestRank (n * c) (d * c) = nearestRank n d := by
  simp only [nearestRank, Nat.mul_div_mul_right n d hc, ← Nat.mul_assoc, compare_mul_right hc]

/-- A whole number of units that is that of a rank is rounded to it. -/
theorem nearestRank_units {r c : Nat} (hr : r < infinityRank) (hc : 0 < c) :
    nearestRank (units r * c) c = r := by
  have hmul := nearestRank_mul hc (units r) 1
  rw [Nat.one_mul] at hmul
  have hlt := units_lt_units_succ r
  have hcompare : compare (2 * units r) ((units r + units (r + 1)) * 1) = .lt :=
    Nat.compare_eq_lt.mpr (by omega)
  rw [hmul]
  simp only [nearestRank, Nat.div_one, rankBelow_units, if_neg (Nat.not_le.mpr hr), hcompare]

/-- Infinity would have this many units. -/
theorem units_infinityRank : units infinityRank = binade * 2 ^ 2046 := by
  have he : infinityRank = binade * (2046 + 1) + 0 := by decide
  rw [he, units_mul_add binade_pos, Nat.add_zero]

end Binary64

namespace Decimal

private theorem ten_pow_pos (k : Nat) : 0 < 10 ^ k := Nat.pow_pos (by decide)

/-- A number has at most so many digits if it is below that power of ten. -/
theorem digitCount_le_iff {n k : Nat} (hk : 0 < k) : digitCount n ≤ k ↔ n < 10 ^ k :=
  Nat.length_toDigits_le_iff (by decide) hk

/-- A factor of ten is one more digit. -/
theorem toDigits_mul_ten_pow {n : Nat} (hn : 0 < n) (j : Nat) :
    Nat.toDigits 10 (n * 10 ^ j) = Nat.toDigits 10 n ++ List.replicate j '0' := by
  induction j with
  | zero => simp
  | succ j ih =>
    have hpos : 0 < n * 10 ^ j := Nat.mul_pos hn (ten_pow_pos j)
    have he : n * 10 ^ (j + 1) = 10 * (n * 10 ^ j) + 0 := by
      rw [Nat.pow_succ, ← Nat.mul_assoc, Nat.mul_comm (n * 10 ^ j) 10, Nat.add_zero]
    rw [he, ← Nat.toDigits_append_toDigits (by decide) hpos (by decide), ih, List.append_assoc,
      List.replicate_succ']
    rfl

/-- A factor of ten is one more digit. -/
theorem digitCount_mul_ten_pow {n : Nat} (hn : 0 < n) (j : Nat) :
    digitCount (n * 10 ^ j) = digitCount n + j := by
  rw [digitCount, toDigits_mul_ten_pow hn, List.length_append, List.length_replicate, digitCount]

private theorem rank_eq (n : Nat) (e : Int) :
    rank ⟨n, e⟩ =
      if n = 0 then 0
      else if e + digitCount n > farAway then Binary64.infinityRank
      else if e + digitCount n < -farAway then 0
      else if e ≥ 0 then Binary64.nearestRank (n * 10 ^ e.toNat * Binary64.unitsPerOne) 1
      else Binary64.nearestRank (n * Binary64.unitsPerOne) (10 ^ (-e).toNat) := rfl

/-- Powers of ten may be moved between digits and exponent. -/
theorem rank_mul_ten_pow {n : Nat} (hn : 0 < n) (j : Nat) (e : Int) :
    rank ⟨n * 10 ^ j, e⟩ = rank ⟨n, e + j⟩ := by
  have hpos : 0 < n * 10 ^ j := Nat.mul_pos hn (ten_pow_pos j)
  have hsize : e + (digitCount (n * 10 ^ j) : Int) = e + j + digitCount n := by
    rw [digitCount_mul_ten_pow hn]
    omega
  rw [rank_eq, rank_eq, if_neg (Nat.ne_of_gt hpos), if_neg (Nat.ne_of_gt hn), hsize]
  split
  · rfl
  · split
    · rfl
    · by_cases he : e ≥ 0
      · have hj : e + j ≥ 0 := by omega
        have hnat : (e + j).toNat = j + e.toNat := by omega
        rw [if_pos he, if_pos hj, hnat, Nat.pow_add, Nat.mul_assoc n]
      · rw [if_neg he]
        by_cases hj : e + j ≥ 0
        · have hnat : j = (e + j).toNat + (-e).toNat := by omega
          have hpow : 10 ^ j = 10 ^ (e + j).toNat * 10 ^ (-e).toNat := by
            rw [← Nat.pow_add, ← hnat]
          have hscale := Binary64.nearestRank_mul (ten_pow_pos (-e).toNat)
            (n * 10 ^ (e + j).toNat * Binary64.unitsPerOne) 1
          rw [if_pos hj, ← hscale, Nat.one_mul, hpow, ← Nat.mul_assoc n, Nat.mul_right_comm]
        · have hnat : (-e).toNat = (-(e + j)).toNat + j := by omega
          have hscale := Binary64.nearestRank_mul (ten_pow_pos j)
            (n * Binary64.unitsPerOne) (10 ^ (-(e + j)).toNat)
          rw [if_neg hj, ← hscale, hnat, Nat.pow_add, Nat.mul_right_comm]

/-- A decimal in range with digits after the point is a quotient of whole numbers. -/
private theorem rank_of_neg {n k : Nat} (hn : 0 < n) (hk : 0 < k)
    (hhigh : (digitCount n : Int) ≤ farAway + k) (hlow : -farAway + k ≤ digitCount n) :
    rank ⟨n, -(k : Int)⟩ = Binary64.nearestRank (n * Binary64.unitsPerOne) (10 ^ k) := by
  have hfar : ¬ (-(k : Int) + digitCount n > farAway) := by omega
  have hnear : ¬ (-(k : Int) + digitCount n < -farAway) := by omega
  have hneg : ¬ (-(k : Int) ≥ 0) := by omega
  have hnat : (- -(k : Int)).toNat = k := by omega
  rw [rank_eq, if_neg (Nat.ne_of_gt hn), if_neg hfar, if_neg hnear, if_neg hneg, hnat]

private theorem five_pow_pos (k : Nat) : 0 < 5 ^ k := Nat.pow_pos (by decide)

private theorem units_pos {r : Nat} (hr : 0 < r) : 0 < Binary64.units r :=
  Nat.lt_of_le_of_lt (Nat.zero_le _) (Binary64.units_lt_units hr)

/-- The exact expansion of a finite number is not out of range. -/
private theorem digitCount_exact {r : Nat} (hr : 0 < r) (hinf : r < Binary64.infinityRank) :
    673 < digitCount (Binary64.units r * 5 ^ unitPlaces) ∧
      digitCount (Binary64.units r * 5 ^ unitPlaces) ≤ 1474 := by
  constructor
  · have hfive : 10 ^ 673 ≤ 5 ^ unitPlaces := by decide +kernel
    have hle := Nat.le_mul_of_pos_left (5 ^ unitPlaces) (units_pos hr)
    rw [← Nat.not_le, digitCount_le_iff (by decide), Nat.not_lt]
    exact Nat.le_trans hfive hle
  · have hbound : Binary64.binade * 2 ^ 2046 * 5 ^ unitPlaces ≤ 10 ^ 1474 := by decide +kernel
    have hlt := Nat.mul_lt_mul_of_pos_right (Binary64.units_lt_units hinf) (five_pow_pos unitPlaces)
    rw [Binary64.units_infinityRank] at hlt
    rw [digitCount_le_iff (by decide)]
    exact Nat.lt_of_lt_of_le hlt hbound

/-- The exact expansion of a finite number reads back as it. -/
theorem rank_exact {r : Nat} (hr : 0 < r) (hinf : r < Binary64.infinityRank) :
    (exact r).rank = r := by
  obtain ⟨hlow, hhigh⟩ := digitCount_exact hr hinf
  have hplaces : unitPlaces = 1074 := rfl
  have hfarAway : farAway = 400 := rfl
  have hten : 5 ^ unitPlaces * Binary64.unitsPerOne = 10 ^ unitPlaces := by decide +kernel
  have hrank := rank_of_neg (Nat.mul_pos (units_pos hr) (five_pow_pos unitPlaces))
    (by decide : 0 < unitPlaces) (by omega) (by omega)
  rw [exact, Nat.pow_eq, hrank, Nat.mul_assoc, hten,
    Binary64.nearestRank_units hinf (ten_pow_pos unitPlaces)]

private theorem rank_of_readingBack? {r : Nat} {found : Decimal × Decimal × Ordering} {d : Decimal}
    (h : readingBack? r found = some d) : d.rank = r := by
  obtain ⟨below, above, half⟩ := found
  simp only [readingBack?] at h
  split at h
  · next hb ha =>
    have hb : below.rank = r := by simpa using hb
    have ha : above.rank = r := by simpa using ha
    split at h
    · cases h
      exact hb
    · cases h
      exact ha
    · split at h
      · cases h
        exact hb
      · cases h
        exact ha
  · next hb _ =>
    cases h
    simpa using hb
  · next ha =>
    cases h
    simpa using ha
  · cases h

/-- The decimal that a finite number is written as reads back as it. -/
theorem rank_shortest {r : Nat} (hr : 0 < r) (hinf : r < Binary64.infinityRank) :
    (shortest r).rank = r := by
  unfold shortest
  cases h : (List.range 17).findSome? fun i => ofRankWith? r (i + 1) with
  | none => exact rank_exact hr hinf
  | some d =>
    obtain ⟨i, -, hi⟩ := List.exists_of_findSome?_eq_some h
    exact rank_of_readingBack? hi

/-- Only zero is written as no digits but zeros. -/
theorem digits_shortest_pos {r : Nat} (hr : 0 < r) (hinf : r < Binary64.infinityRank) :
    0 < (shortest r).digits := by
  rcases Nat.eq_zero_or_pos (shortest r).digits with h | h
  · have hrank := rank_shortest hr hinf
    rw [rank, if_pos h] at hrank
    omega
  · exact h

end Decimal

end Groundplan
