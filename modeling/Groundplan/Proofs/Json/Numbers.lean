import Groundplan.Json.Parser
import Groundplan.Json.Printer
import Groundplan.Proofs.Number.Rounding
import Mathlib.Data.Nat.Digits.Defs

/-!
# Numbers read back

An integer is read back from its digits. A finite number is written as a decimal in one of four forms,
and what is read from each is a decimal of the same value, which is rounded to the same number.
-/

namespace Groundplan.Json

/-- What may follow a number: nothing that could be a part of it. -/
def Ends (cs : List Char) : Prop :=
  ∀ c ∈ cs.head?, c.isDigit = false ∧ c ≠ '.' ∧ c ≠ 'e' ∧ c ≠ 'E'

/-- The digits that a number may start with. -/
structure Whole (ds : List Char) : Prop where
  ne_nil : ds ≠ []
  digits : ∀ c ∈ ds, c.isDigit = true
  zero : ds.head? = some '0' → ds = ['0']

private theorem takeWhile_digits {ds cs : List Char} (hds : ∀ c ∈ ds, c.isDigit = true)
    (hcs : ∀ c ∈ cs.head?, c.isDigit = false) : (ds ++ cs).takeWhile Char.isDigit = ds := by
  rw [List.takeWhile_append_of_pos hds]
  cases cs with
  | nil => simp
  | cons c cs => simp [hcs c rfl]

private theorem dropWhile_digits {ds cs : List Char} (hds : ∀ c ∈ ds, c.isDigit = true)
    (hcs : ∀ c ∈ cs.head?, c.isDigit = false) : (ds ++ cs).dropWhile Char.isDigit = cs := by
  rw [List.dropWhile_append_of_pos hds]
  cases cs with
  | nil => simp
  | cons c cs => simp [hcs c rfl]

private theorem wholeDigits_append {ds cs : List Char} (hds : Whole ds)
    (hcs : ∀ c ∈ cs.head?, c.isDigit = false) : wholeDigits (ds ++ cs) = ds := by
  obtain ⟨c, ds, rfl⟩ := List.exists_cons_of_ne_nil hds.ne_nil
  by_cases hc : c = '0'
  · subst hc
    rw [hds.zero rfl]
    rfl
  · rw [wholeDigits, takeWhile_digits hds.digits hcs]
    rintro _ ⟨⟩
    exact hc rfl

/-- The sign of a number. -/
def signChars (negative : Bool) : List Char := if negative then ['-'] else []

private theorem number_append (negative : Bool) {ds cs : List Char} (hds : Whole ds)
    (hcs : ∀ c ∈ cs.head?, c.isDigit = false) :
    number (signChars negative ++ (ds ++ cs)) = afterWhole negative ds cs := by
  have hwhole := wholeDigits_append hds hcs
  have hne : ds.isEmpty = false := by simpa using hds.ne_nil
  cases negative with
  | true =>
    simp only [number, signChars, ↓reduceIte, List.cons_append, List.nil_append, hwhole, hne,
      Bool.false_eq_true, List.drop_left]
  | false =>
    have hfirst : ∀ rest, ds ++ cs ≠ '-' :: rest := by
      intro rest he
      obtain ⟨c, ds, rfl⟩ := List.exists_cons_of_ne_nil hds.ne_nil
      cases he
      exact absurd (hds.digits '-' (List.mem_cons_self)) (by decide)
    simp only [signChars, Bool.false_eq_true, ↓reduceIte, List.nil_append]
    unfold number
    split
    next sign body heq =>
    split at heq
    · next h => exact absurd h (hfirst _)
    · cases heq
      simp only [hwhole, hne, Bool.false_eq_true, ↓reduceIte, List.drop_left]

private theorem fraction?_point {places cs : List Char} (hne : places ≠ [])
    (hplaces : ∀ c ∈ places, c.isDigit = true) (hcs : ∀ c ∈ cs.head?, c.isDigit = false) :
    fraction? ('.' :: (places ++ cs)) = some (places, cs) := by
  rw [fraction?, takeWhile_digits hplaces hcs, dropWhile_digits hplaces hcs]
  split
  · next h => exact absurd rfl hne
  · rfl

private theorem fraction?_eq_none {cs : List Char} (hcs : ∀ c ∈ cs.head?, c ≠ '.') :
    fraction? cs = none := by
  rw [fraction?]
  rintro rest rfl
  exact hcs '.' rfl rfl

private theorem exponent?_eq_none {cs : List Char} (hcs : ∀ c ∈ cs.head?, c ≠ 'e' ∧ c ≠ 'E') :
    exponent? cs = none := by
  cases cs with
  | nil => rfl
  | cons c cs =>
    obtain ⟨he, hE⟩ := hcs c rfl
    simp [exponent?, he, hE]

/-- Zeros after digits are a power of ten. -/
theorem numberOf_append_zeros (ds : List Char) (n : Nat) :
    numberOf (ds ++ List.replicate n '0') = numberOf ds * 10 ^ n := by
  show Nat.ofDigitChars 10 (ds ++ List.replicate n '0') 0 = _
  rw [Nat.ofDigitChars_append, Nat.ofDigitChars_replicate_zero, Nat.mul_comm]
  rfl

/-- Zeros before digits count for nothing. -/
theorem numberOf_zeros_append (n : Nat) (ds : List Char) :
    numberOf (List.replicate n '0' ++ ds) = numberOf ds := by
  show Nat.ofDigitChars 10 (List.replicate n '0' ++ ds) 0 = _
  rw [Nat.ofDigitChars_append, Nat.ofDigitChars_replicate_zero, Nat.mul_zero]
  rfl

/-- The digits of a number stand for it. -/
theorem numberOf_toDigits (n : Nat) : numberOf (Nat.toDigits 10 n) = n :=
  Nat.ofDigitChars_ten_toDigits

private theorem isDigit_of_mem_toDigits {n : Nat} : ∀ c ∈ Nat.toDigits 10 n, c.isDigit = true :=
  fun _ hc => Nat.isDigit_of_mem_toDigits (by decide) (by decide) hc

private theorem exponent?_signed {negative : Bool} {ds cs : List Char} (hne : ds ≠ [])
    (hds : ∀ c ∈ ds, c.isDigit = true) (hcs : ∀ c ∈ cs.head?, c.isDigit = false) :
    exponent? ('e' :: (if negative then '-' else '+') :: (ds ++ cs)) =
      some (if negative then -(numberOf ds : Int) else numberOf ds, cs) := by
  have htake := takeWhile_digits hds hcs
  have hdrop := dropWhile_digits hds hcs
  cases negative with
  | true =>
    simp only [exponent?, ↓reduceIte, beq_self_eq_true, Bool.true_or, htake, hdrop]
  | false =>
    simp only [exponent?, Bool.false_eq_true, ↓reduceIte, beq_self_eq_true, Bool.true_or, htake,
      hdrop]

private theorem exponentChars_eq (e : Int) : ∃ ds, ds ≠ [] ∧ (∀ c ∈ ds, c.isDigit = true) ∧
    numberOf ds = e.natAbs ∧
      Decimal.exponentChars e = (if decide (e < 0) then '-' else '+') :: ds := by
  by_cases hshort : (Nat.toDigits 10 e.natAbs).length < 2
  · refine ⟨'0' :: Nat.toDigits 10 e.natAbs, by simp, ?_, ?_, ?_⟩
    · simp only [List.mem_cons, forall_eq_or_imp]
      exact ⟨rfl, isDigit_of_mem_toDigits⟩
    · exact (numberOf_zeros_append 1 _).trans (numberOf_toDigits _)
    · simp only [Decimal.exponentChars, hshort, ↓reduceIte, decide_eq_true_eq]
  · refine ⟨Nat.toDigits 10 e.natAbs, Nat.toDigits_ne_nil, isDigit_of_mem_toDigits,
      numberOf_toDigits _, ?_⟩
    simp only [Decimal.exponentChars, hshort, ↓reduceIte, decide_eq_true_eq]

private theorem exponent?_exponentChars (e : Int) {cs : List Char}
    (hcs : ∀ c ∈ cs.head?, c.isDigit = false) :
    exponent? ('e' :: (Decimal.exponentChars e ++ cs)) = some (e, cs) := by
  obtain ⟨ds, hne, hds, hnum, hchars⟩ := exponentChars_eq e
  have hvalue : (if decide (e < 0) then -(e.natAbs : Int) else e.natAbs) = e := by
    simp only [decide_eq_true_eq]
    omega
  rw [hchars, List.cons_append, exponent?_signed hne hds hcs, hnum, hvalue]

/-- Whatever follows, the text is read as the decimal. -/
private def ReadsAs (negative : Bool) (text : List Char) (d : Decimal) : Prop :=
  ∀ cs, Ends cs → number (signChars negative ++ (text ++ cs)) =
    .ok (.scalar (.float (Binary64.ofDecimal negative d)), cs)

private theorem head?_cons_not_digit {c : Char} (hc : c.isDigit = false) (cs : List Char) :
    ∀ d ∈ (c :: cs).head?, d.isDigit = false := by
  rintro d ⟨⟩
  exact hc

variable (negative : Bool) {whole places : List Char}

private theorem readsAs_point (hw : Whole whole) (hne : places ≠ [])
    (hp : ∀ c ∈ places, c.isDigit = true) :
    ReadsAs negative (whole ++ '.' :: places) ⟨numberOf (whole ++ places), -places.length⟩ := by
  intro cs hcs
  have hfraction := fraction?_point hne hp fun c hc => (hcs c hc).1
  have hexponent := exponent?_eq_none fun c hc => (hcs c hc).2.2
  rw [List.append_assoc, List.cons_append,
    number_append negative hw (head?_cons_not_digit (by decide) _), afterWhole]
  simp only [hfraction, hexponent, Option.map_some, Option.getD_some, Option.map_none,
    Option.getD_none, Int.zero_sub]

private theorem readsAs_point_exponent (hw : Whole whole) (hne : places ≠ [])
    (hp : ∀ c ∈ places, c.isDigit = true) (e : Int) :
    ReadsAs negative (whole ++ '.' :: (places ++ 'e' :: Decimal.exponentChars e))
      ⟨numberOf (whole ++ places), e - places.length⟩ := by
  intro cs hcs
  have hexponent := exponent?_exponentChars e fun c hc => (hcs c hc).1
  have hfraction := fraction?_point hne hp
    (head?_cons_not_digit (by decide : 'e'.isDigit = false) (Decimal.exponentChars e ++ cs))
  rw [List.append_assoc, List.cons_append, List.append_assoc, List.cons_append,
    number_append negative hw (head?_cons_not_digit (by decide) _), afterWhole]
  simp only [hfraction, hexponent, Option.map_some, Option.getD_some]

private theorem readsAs_exponent (hw : Whole whole) (e : Int) :
    ReadsAs negative (whole ++ 'e' :: Decimal.exponentChars e) ⟨numberOf whole, e⟩ := by
  intro cs hcs
  have hexponent := exponent?_exponentChars e fun c hc => (hcs c hc).1
  have hfraction : fraction? ('e' :: (Decimal.exponentChars e ++ cs)) = none :=
    fraction?_eq_none (by simp)
  rw [List.append_assoc, List.cons_append,
    number_append negative hw (head?_cons_not_digit (by decide) _), afterWhole]
  simp only [hfraction, hexponent, Option.map_some, Option.getD_some, Option.map_none,
    Option.getD_none, List.append_nil, List.length_nil, Int.natCast_zero, Int.sub_zero]

private theorem head?_append_of_ne_nil {ds es : List Char} (h : ds ≠ []) :
    (ds ++ es).head? = ds.head? := by
  obtain ⟨c, ds, rfl⟩ := List.exists_cons_of_ne_nil h
  rfl

private theorem head?_toDigits_ne_zero {n : Nat} (hn : 0 < n) :
    (Nat.toDigits 10 n).head? ≠ some '0' := by
  induction n using Nat.strongRecOn with
  | _ n ih =>
    rcases Nat.lt_or_ge n 10 with hlt | hge
    · have hdigit : ∀ m < 10, 0 < m → m.digitChar ≠ '0' := by decide
      rw [Nat.toDigits_of_lt_base hlt]
      simpa using hdigit n hlt hn
    · have htail := ih (n / 10) (by omega) (by omega)
      rwa [Nat.toDigits_of_base_le (by decide) hge, head?_append_of_ne_nil Nat.toDigits_ne_nil]

/-- The digits of a number other than zero may start a number. -/
private theorem whole_toDigits (n : Nat) : Whole (Nat.toDigits 10 n) where
  ne_nil := Nat.toDigits_ne_nil
  digits := isDigit_of_mem_toDigits
  zero h := by
    rcases Nat.eq_zero_or_pos n with rfl | hn
    · rfl
    · exact absurd h (head?_toDigits_ne_zero hn)

/-- What is left of the digits of a decimal without the zeros at their end. -/
private structure Significant (d : Decimal) (ds : List Char) (leading : Int) : Prop where
  digits : ∀ c ∈ ds, c.isDigit = true
  head : ds.head? ≠ some '0'
  pos : 0 < numberOf ds
  rank_eq : (Decimal.mk (numberOf ds) (leading + 1 - ds.length)).rank = d.rank

private theorem significant_spec {d : Decimal} (hd : 0 < d.digits) :
    Significant d d.significant.1 d.significant.2 := by
  obtain ⟨ds, z, hall, hds⟩ : ∃ ds z, Nat.toDigits 10 d.digits = ds ++ List.replicate z '0' ∧
      d.significant.1 = ds := by
    refine ⟨_, ((Nat.toDigits 10 d.digits).reverse.takeWhile (· == '0')).length, ?_, rfl⟩
    have hzeros : ∀ c ∈ (Nat.toDigits 10 d.digits).reverse.takeWhile (· == '0'), c = '0' :=
      fun c hc => beq_iff_eq.mp (List.all_eq_true.mp List.all_takeWhile c hc)
    rw [← List.reverse_replicate, ← List.eq_replicate_of_mem hzeros, Decimal.significant,
      ← List.reverse_append, List.takeWhile_append_dropWhile, List.reverse_reverse]
  have hnum := numberOf_toDigits d.digits
  rw [hall, numberOf_append_zeros] at hnum
  have hpos : 0 < numberOf ds := Nat.pos_of_ne_zero fun h => by
    rw [h, Nat.zero_mul] at hnum
    omega
  have hne : ds ≠ [] := by
    rintro rfl
    exact absurd hpos (by decide)
  have hleading : d.significant.2 = d.exponent + (ds.length + z : Nat) - 1 := by
    simp only [Decimal.significant, hall, List.length_append, List.length_replicate]
  rw [hds]
  refine ⟨fun c hc => isDigit_of_mem_toDigits c (hall ▸ List.mem_append_left _ hc), ?_, hpos, ?_⟩
  · have hhead := head?_toDigits_ne_zero hd
    rwa [hall, head?_append_of_ne_nil hne] at hhead
  · have hexponent : d.significant.2 + 1 - ds.length = d.exponent + z := by
      rw [hleading]
      omega
    rw [hexponent, ← Decimal.rank_mul_ten_pow hpos, hnum]

private theorem whole_singleton {c : Char} (hc : c.isDigit = true) : Whole [c] where
  ne_nil := by simp
  digits := by simpa using hc
  zero h := by simpa using h

private theorem whole_of_head {ds : List Char} (hne : ds ≠ []) (hds : ∀ c ∈ ds, c.isDigit = true)
    (hhead : ds.head? ≠ some '0') : Whole ds :=
  ⟨hne, hds, fun h => absurd h hhead⟩

variable {d : Decimal} {ds : List Char} {leading : Int}

/-- A number below one is read from the digits after the zeros that follow the point. -/
private theorem readsAs_small (hs : Significant d ds leading) (hneg : leading < 0) :
    ∃ d', ReadsAs negative ('0' :: '.' :: (List.replicate (-leading - 1).toNat '0' ++ ds)) d' ∧
      d'.rank = d.rank := by
  have hne : List.replicate (-leading - 1).toNat '0' ++ ds ≠ [] := by
    have hpos := hs.pos
    cases ds with
    | nil => exact absurd hpos (by decide)
    | cons c cs => simp
  have hdigits : ∀ c ∈ List.replicate (-leading - 1).toNat '0' ++ ds, c.isDigit = true := by
    intro c hc
    rcases List.mem_append.mp hc with h | h
    · obtain rfl := List.eq_of_mem_replicate h
      rfl
    · exact hs.digits c h
  have hzero := whole_singleton (by decide : '0'.isDigit = true)
  refine ⟨_, readsAs_point negative hzero hne hdigits, ?_⟩
  have hnum : numberOf (['0'] ++ (List.replicate (-leading - 1).toNat '0' ++ ds)) = numberOf ds := by
    rw [← List.append_assoc]
    exact numberOf_zeros_append ((-leading - 1).toNat + 1) ds
  have hplaces : -((List.replicate (-leading - 1).toNat '0' ++ ds).length : Int) =
      leading + 1 - ds.length := by
    rw [List.length_append, List.length_replicate]
    omega
  rw [hnum, hplaces, hs.rank_eq]

/-- A number without places is read from its digits, the zeros that fill them up and a zero after the
point. -/
private theorem readsAs_integral (hs : Significant d ds leading) (hlen : ds.length ≤ leading.toNat + 1)
    (hpos : 0 ≤ leading) :
    ∃ d', ReadsAs negative
        (ds ++ List.replicate (leading.toNat + 1 - ds.length) '0' ++ '.' :: ['0']) d' ∧
      d'.rank = d.rank := by
  have hne : ds ≠ [] := by
    rintro rfl
    exact absurd hs.pos (by decide)
  have hwhole : Whole (ds ++ List.replicate (leading.toNat + 1 - ds.length) '0') := by
    refine whole_of_head (by simp [hne]) ?_ (head?_append_of_ne_nil hne ▸ hs.head)
    intro c hc
    rcases List.mem_append.mp hc with h | h
    · exact hs.digits c h
    · obtain rfl := List.eq_of_mem_replicate h
      rfl
  refine ⟨_, readsAs_point negative hwhole (by simp) (List.forall_mem_singleton.mpr rfl), ?_⟩
  have hnum : numberOf (ds ++ List.replicate (leading.toNat + 1 - ds.length) '0' ++ ['0']) =
      numberOf ds * 10 ^ (leading.toNat + 1 - ds.length + 1) := by
    rw [← numberOf_append_zeros, List.replicate_succ', List.append_assoc]
  have hexponent : -(['0'].length : Int) + (leading.toNat + 1 - ds.length + 1 : Nat) =
      leading + 1 - ds.length := by
    simp only [List.length_singleton]
    omega
  rw [hnum, Decimal.rank_mul_ten_pow hs.pos, hexponent, hs.rank_eq]

/-- A number with places is read from the digits on both sides of the point. -/
private theorem readsAs_split (hs : Significant d ds leading) (hlen : leading.toNat + 1 < ds.length)
    (hpos : 0 ≤ leading) :
    ∃ d', ReadsAs negative (ds.take (leading.toNat + 1) ++ '.' :: ds.drop (leading.toNat + 1)) d' ∧
      d'.rank = d.rank := by
  have hhead : (ds.take (leading.toNat + 1)).head? ≠ some '0' := by
    rw [List.head?_take]
    simpa using hs.head
  have hwhole : Whole (ds.take (leading.toNat + 1)) :=
    whole_of_head (List.ne_nil_of_length_pos (by rw [List.length_take]; omega))
      (fun c hc => hs.digits c (List.mem_of_mem_take hc)) hhead
  refine ⟨_, readsAs_point negative hwhole
    (List.ne_nil_of_length_pos (by rw [List.length_drop]; omega))
    (fun c hc => hs.digits c (List.mem_of_mem_drop hc)), ?_⟩
  have hplaces : -((ds.drop (leading.toNat + 1)).length : Int) = leading + 1 - ds.length := by
    rw [List.length_drop]
    omega
  rw [List.take_append_drop, hplaces, hs.rank_eq]

/-- The text of a decimal is read as a decimal of the same rank. -/
private theorem readsAs_chars (hd : 0 < d.digits) :
    ∃ d', ReadsAs negative d.chars d' ∧ d'.rank = d.rank := by
  have hs := significant_spec hd
  rw [Decimal.chars]
  generalize d.significant = found at hs ⊢
  obtain ⟨ds, leading⟩ := found
  dsimp only at hs ⊢
  split
  · split
    · next hneg => exact readsAs_small negative hs hneg
    · next hneg =>
      rcases Nat.lt_or_ge (leading.toNat + 1) ds.length with hlen | hlen
      · have hempty : (ds.drop (leading.toNat + 1)).isEmpty = false := by
          simpa using hlen
        have hfill : leading.toNat + 1 - ds.length = 0 := by omega
        rw [hempty, hfill, List.replicate_zero, List.append_nil]
        exact readsAs_split negative hs hlen (by omega)
      · have hdrop : ds.drop (leading.toNat + 1) = [] := List.drop_eq_nil_of_le hlen
        rw [List.take_of_length_le hlen, hdrop]
        exact readsAs_integral negative hs hlen (by omega)
  · split
    · exact absurd hs.pos (by decide)
    · next c =>
      refine ⟨_, readsAs_exponent negative (whole_singleton (hs.digits c (by simp))) leading, ?_⟩
      rw [← hs.rank_eq]
      congr 2
      simp
    · next c cs hcs =>
      refine ⟨_, readsAs_point_exponent negative (whole_singleton (hs.digits c (by simp))) ?_
        (fun b hb => hs.digits b (List.mem_cons_of_mem c hb)) leading, ?_⟩
      · rintro rfl
        exact hcs rfl
      · rw [← hs.rank_eq, List.singleton_append]
        congr 2
        rw [List.length_cons]
        omega

private theorem ofDecimal_of_rank_eq {r : Fin (Binary64.infinityRank + 1)} (h : d.rank = r.val) :
    Binary64.ofDecimal negative d = .signed negative r := by
  have hmin : min r.val Binary64.infinityRank = r.val := Nat.min_eq_left (Nat.le_of_lt_succ r.isLt)
  simp only [Binary64.ofDecimal, Binary64.ofRank, h, hmin]

/-- A finite number is read back from its text. -/
theorem number_chars {x : Binary64} (hx : x.isFinite = true) {cs : List Char} (hcs : Ends cs) :
    number (x.chars spelling ++ cs) = .ok (.scalar (.float x), cs) := by
  cases x with
  | nan payload => cases hx
  | signed negative r =>
    have hfinite : r.val < Binary64.infinityRank := by simpa [Binary64.isFinite] using hx
    rw [Binary64.chars, if_pos hfinite, List.append_assoc]
    by_cases hzero : r.val = 0
    · rw [if_pos hzero]
      have hread := readsAs_point negative (whole_singleton (by decide : '0'.isDigit = true))
        (by simp : ['0'] ≠ []) (List.forall_mem_singleton.mpr rfl) cs hcs
      have hrank : (Decimal.mk (numberOf (['0'] ++ ['0'])) (-(['0'].length : Nat))).rank = r.val := by
        rw [hzero]
        rfl
      rw [ofDecimal_of_rank_eq negative hrank] at hread
      exact hread
    · rw [if_neg hzero]
      have hpos : 0 < r.val := Nat.pos_of_ne_zero hzero
      obtain ⟨d, hread, hrank⟩ := readsAs_chars negative
        (Decimal.digits_shortest_pos hpos hfinite)
      rw [Decimal.rank_shortest hpos hfinite] at hrank
      have hread := hread cs hcs
      rw [ofDecimal_of_rank_eq negative hrank] at hread
      exact hread

/-- A number below the limit for digits has not too many of them. -/
theorem isLong_ofNat {n : Nat} (h : n < 10 ^ Text.digitLimit) : isLong (.int (Int.ofNat n)) = false := by
  have hdigits := Nat.toDigits_length 10 n Text.digitLimit (by decide) h
  simpa [isLong] using hdigits

/-- An integer is read back from its text unless it has too many digits. -/
theorem number_intChars {i : Int} (hi : isLong (.int i) = false) {cs : List Char}
    (hcs : Ends cs) : number (intChars i ++ cs) = .ok (.int i, cs) := by
  have hlen : ¬ (Nat.toDigits 10 i.natAbs).length > Text.digitLimit := by
    simpa [isLong] using hi
  have htext : intChars i = signChars (decide (i < 0)) ++ Nat.toDigits 10 i.natAbs := by
    by_cases hneg : i < 0 <;> simp [intChars, signChars, hneg]
  have hvalue : (if decide (i < 0) then -(i.natAbs : Int) else i.natAbs) = i := by
    simp only [decide_eq_true_eq]
    omega
  have hfraction : fraction? cs = none := fraction?_eq_none fun c hc => (hcs c hc).2.1
  have hexponent : exponent? cs = none := exponent?_eq_none fun c hc => (hcs c hc).2.2
  rw [htext, List.append_assoc,
    number_append _ (whole_toDigits i.natAbs) (fun c hc => (hcs c hc).1), afterWhole]
  simp only [hfraction, hexponent, Option.map_none, Option.getD_none, hlen, ↓reduceIte,
    numberOf_toDigits, hvalue]

/-- What is read as a number starts with a digit after its sign. -/
theorem exists_digit_of_number {cs : List Char} {found : Datum × List Char}
    (h : number cs = .ok found) :
    ∃ negative c rest, cs = signChars negative ++ c :: rest ∧ c.isDigit = true := by
  have hwhole : ∀ body, (wholeDigits body).isEmpty = false →
      ∃ c rest, body = c :: rest ∧ c.isDigit = true := by
    intro body hbody
    cases body with
    | nil => cases hbody
    | cons c rest =>
      refine ⟨c, rest, rfl, ?_⟩
      by_cases hc : c = '0'
      · subst hc
        rfl
      · rw [wholeDigits, List.takeWhile_cons] at hbody
        · split at hbody
          · assumption
          · cases hbody
        · rintro _ ⟨⟩
          exact hc rfl
  unfold number at h
  split at h
  next negative body heq =>
  dsimp only at h
  split at h
  · cases h
  · next hne =>
    obtain ⟨c, rest, rfl, hc⟩ := hwhole body (Bool.eq_false_iff.mpr hne)
    refine ⟨negative, c, rest, ?_, hc⟩
    split at heq
    · cases heq
      rfl
    · cases heq
      rfl

end Groundplan.Json
