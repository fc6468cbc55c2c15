import Groundplan.Proofs.Datum.Entries
import Groundplan.Proofs.Number.Rounding

/-!
# Sameness

Being the same is an equivalence of scalars and of keys: numbers are the same if they have one value,
and what has no value only if it is equal. So keys that are the same lead to the same place in all
entries, and where no two keys are the same each entry is found under its key.
-/

namespace Groundplan

namespace Binary64

/-- Numbers of different ranks have different sizes. -/
theorem units_injective {r q : Nat} (h : units r = units q) : r = q := by
  rcases Nat.lt_trichotomy r q with hlt | he | hlt
  · exact absurd h (Nat.ne_of_lt (units_lt_units hlt))
  · exact he
  · exact absurd h.symm (Nat.ne_of_lt (units_lt_units hlt))

/-- Numbers of one finite value are equal by value. -/
theorem eqValue_of_signedUnits? {x y : Binary64} {u : Int} (hx : x.signedUnits? = some u)
    (hy : y.signedUnits? = some u) : x.eqValue y = true := by
  cases x with
  | nan p => cases hx
  | signed s r =>
    cases y with
    | nan p => cases hy
    | signed t q =>
      simp only [signedUnits?, Option.ite_none_right_eq_some, Option.some.injEq] at hx hy
      obtain ⟨-, hx⟩ := hx
      obtain ⟨-, hy⟩ := hy
      have hsize : units r.val = units q.val ∧ (s = t ∨ units r.val = 0) := by
        cases s <;> cases t <;> simp only [if_true, Bool.false_eq_true, if_false] at hx hy <;>
          refine ⟨by omega, ?_⟩ <;> first | exact .inl rfl | exact .inr (by omega)
      obtain rfl : r = q := Fin.ext (units_injective hsize.1)
      simp only [eqValue, beq_self_eq_true, Bool.true_and, Bool.or_eq_true, beq_iff_eq]
      have hzero : units 0 = 0 := rfl
      exact hsize.2.imp_right fun h => units_injective (h.trans hzero.symm)

/-- Numbers that are equal by value are equal or of one finite value. -/
theorem eq_or_signedUnits?_of_eqValue {x y : Binary64} (h : x.eqValue y = true) :
    x = y ∨ ∃ u, x.signedUnits? = some u ∧ y.signedUnits? = some u := by
  cases x with
  | nan p => cases h
  | signed s r =>
    cases y with
    | nan p => cases h
    | signed t q =>
      simp only [eqValue, Bool.and_eq_true, beq_iff_eq, Bool.or_eq_true] at h
      obtain ⟨rfl, rfl | hzero⟩ := h
      · exact .inl rfl
      · have hr : r = 0 := Fin.ext hzero
        subst hr
        refine .inr ⟨0, ?_, ?_⟩
        · cases s <;> rfl
        · cases t <;> rfl

end Binary64

namespace Scalar

/-- The value of a scalar that is a finite number, in the units of `Binary64.units`. -/
def units? : Scalar → Option Int
  | .bool b => some (ofBool b * (Binary64.unitsPerOne : Int))
  | .int i => some (i * (Binary64.unitsPerOne : Int))
  | .float x => x.signedUnits?
  | _ => none

private theorem unitsPerOne_ne_zero : (Binary64.unitsPerOne : Int) ≠ 0 := by
  have hpos : 0 < Binary64.unitsPerOne := by decide +kernel
  exact Int.natCast_ne_zero.mpr (Nat.ne_of_gt hpos)

/-- Scalars that are equal by value are equal or numbers of one value. -/
theorem units?_of_eqValue {a b : Scalar} (h : a.eqValue b = true) :
    a = b ∨ ∃ u, a.units? = some u ∧ b.units? = some u := by
  unfold eqValue at h
  split at h
  · exact .inl rfl
  · exact .inl (congrArg _ (eq_of_beq h))
  · exact .inl (congrArg _ (eq_of_beq h))
  · exact .inr ⟨_, rfl, by rw [eq_of_beq h]; rfl⟩
  · exact .inr ⟨_, rfl, by rw [eq_of_beq h]; rfl⟩
  · exact .inr ⟨_, rfl, eq_of_beq h⟩
  · exact .inr ⟨_, eq_of_beq h, rfl⟩
  · exact .inl (congrArg _ (eq_of_beq h))
  · exact .inr ⟨_, rfl, eq_of_beq h⟩
  · exact .inr ⟨_, eq_of_beq h, rfl⟩
  · exact (Binary64.eq_or_signedUnits?_of_eqValue h).imp_left (congrArg _)
  · cases h

/-- Numbers of one value are equal by value. -/
theorem eqValue_of_units? {a b : Scalar} {u : Int} (ha : a.units? = some u)
    (hb : b.units? = some u) : a.eqValue b = true := by
  have hcancel {i j : Int} (hi : i * (Binary64.unitsPerOne : Int) = u)
      (hj : j * (Binary64.unitsPerOne : Int) = u) : i = j :=
    Int.eq_of_mul_eq_mul_right unitsPerOne_ne_zero (hi.trans hj.symm)
  cases a with
  | null => cases ha
  | text s => cases ha
  | bool a =>
    cases b with
    | null => cases hb
    | text s => cases hb
    | bool b =>
      have he := hcancel (Option.some.inj ha) (Option.some.inj hb)
      cases a <;> cases b <;> first | rfl | cases he
    | int j => exact beq_iff_eq.mpr (hcancel (Option.some.inj ha) (Option.some.inj hb))
    | float y => exact beq_iff_eq.mpr (hb.trans ha.symm)
  | int i =>
    cases b with
    | null => cases hb
    | text s => cases hb
    | bool b => exact beq_iff_eq.mpr (hcancel (Option.some.inj ha) (Option.some.inj hb))
    | int j => exact beq_iff_eq.mpr (hcancel (Option.some.inj ha) (Option.some.inj hb))
    | float y => exact beq_iff_eq.mpr (hb.trans ha.symm)
  | float x =>
    cases b with
    | null => cases hb
    | text s => cases hb
    | bool b => exact beq_iff_eq.mpr (ha.trans hb.symm)
    | int j => exact beq_iff_eq.mpr (ha.trans hb.symm)
    | float y => exact Binary64.eqValue_of_signedUnits? ha hb

/-- Scalars are the same if they are equal or numbers of one value. -/
theorem same_iff {a b : Scalar} :
    a.same b = true ↔ a = b ∨ ∃ u, a.units? = some u ∧ b.units? = some u := by
  rw [same, Bool.or_eq_true, beq_iff_eq]
  constructor
  · rintro (h | h)
    · exact .inl h
    · exact units?_of_eqValue h
  · rintro (h | ⟨u, ha, hb⟩)
    · exact .inl h
    · exact .inr (eqValue_of_units? ha hb)

theorem same_symm {a b : Scalar} (h : a.same b = true) : b.same a = true := by
  rw [same_iff] at h ⊢
  rcases h with rfl | ⟨u, ha, hb⟩
  · exact .inl rfl
  · exact .inr ⟨u, hb, ha⟩

theorem same_trans {a b c : Scalar} (hab : a.same b = true) (hbc : b.same c = true) :
    a.same c = true := by
  rw [same_iff] at hab hbc ⊢
  rcases hab with rfl | ⟨u, ha, hb⟩
  · exact hbc
  · rcases hbc with rfl | ⟨v, hb', hc⟩
    · exact .inr ⟨u, ha, hb⟩
    · rw [hb] at hb'
      cases hb'
      exact .inr ⟨u, ha, hc⟩

end Scalar

namespace Key

mutual
@[simp] theorem same_self : ∀ k : Key, k.same k = true
  | .scalar a => a.same_self
  | .bytes a => beq_self_eq_true a
  | .tuple ks => sameAll_self ks
  | .reference r => beq_self_eq_true r
  | .entity e => beq_self_eq_true e

theorem sameAll_self : ∀ ks : List Key, sameAll ks ks = true
  | [] => rfl
  | k :: ks => by rw [sameAll, same_self k, sameAll_self ks, Bool.and_self]
end

mutual
theorem same_symm : ∀ {k l : Key}, k.same l = true → l.same k = true
  | .scalar a, .scalar b, h => Scalar.same_symm (a := a) (b := b) h
  | .bytes a, .bytes b, h => beq_iff_eq.mpr (eq_of_beq (a := a) (b := b) h).symm
  | .tuple as, .tuple bs, h => (sameAll_symm h : sameAll bs as = true)
  | .reference a, .reference b, h => beq_iff_eq.mpr (eq_of_beq (a := a) (b := b) h).symm
  | .entity a, .entity b, h => beq_iff_eq.mpr (eq_of_beq (a := a) (b := b) h).symm

theorem sameAll_symm : ∀ {ks ls : List Key}, sameAll ks ls = true → sameAll ls ks = true
  | [], [], _ => rfl
  | k :: ks, l :: ls, h => by
    rw [sameAll, Bool.and_eq_true] at h ⊢
    exact ⟨same_symm h.1, sameAll_symm h.2⟩
end

mutual
theorem same_trans :
    ∀ {k l m : Key}, k.same l = true → l.same m = true → k.same m = true
  | .scalar _, .scalar _, .scalar _, h, h' => Scalar.same_trans h h'
  | .bytes a, .bytes b, .bytes _, h, h' => by
    obtain rfl : a = b := eq_of_beq h
    exact h'
  | .tuple as, .tuple _, .tuple cs, h, h' => (sameAll_trans h h' : sameAll as cs = true)
  | .reference a, .reference b, .reference _, h, h' => by
    obtain rfl : a = b := eq_of_beq h
    exact h'
  | .entity a, .entity b, .entity _, h, h' => by
    obtain rfl : a = b := eq_of_beq h
    exact h'

theorem sameAll_trans : ∀ {ks ls ms : List Key},
    sameAll ks ls = true → sameAll ls ms = true → sameAll ks ms = true
  | [], [], [], _, _ => rfl
  | k :: ks, l :: ls, m :: ms, h, h' => by
    rw [sameAll, Bool.and_eq_true] at h h' ⊢
    exact ⟨same_trans h.1 h'.1, sameAll_trans h.2 h'.2⟩
end

/-- Keys that are the same are the same as the same keys. -/
theorem same_congr {k l : Key} (h : k.same l = true) (m : Key) : k.same m = l.same m :=
  Bool.eq_iff_iff.mpr ⟨same_trans (same_symm h), same_trans h⟩

end Key

namespace Entries

variable {α : Type} {es : Entries α}

/-- Keys that are the same lead to the same place. -/
theorem get?_congr {k l : Key} (h : k.same l = true) (es : Entries α) : es.get? k = es.get? l := by
  simp only [get?, Key.same_congr h]

/-- What is found under a key is an entry whose key is the same. -/
theorem exists_mem_of_get? {k : Key} {v : α} (h : es.get? k = some v) :
    ∃ l, (l, v) ∈ es ∧ k.same l = true := by
  obtain ⟨⟨l, x⟩, he, rfl⟩ := Option.map_eq_some_iff.mp h
  exact ⟨l, List.mem_of_find?_eq_some he, by simpa using List.find?_some he⟩

/-- Whether keys are told apart depends on the keys alone. -/
theorem distinct_iff_keys :
    es.Distinct ↔ es.keys.Pairwise fun k l => k.same l = false := by
  rw [Distinct, keys, List.pairwise_map]

/-- Entries are found under their keys where no two are the same. -/
theorem Distinct.get?_of_mem (h : es.Distinct) {k l : Key} {v : α} (he : (l, v) ∈ es)
    (hk : k.same l = true) : es.get? k = some v := by
  induction es with
  | nil => cases he
  | cons e es ih =>
    obtain ⟨k', v'⟩ := e
    obtain ⟨hfirst, hrest⟩ := List.pairwise_cons.mp h
    rw [get?_cons]
    cases he with
    | head => rw [if_pos hk]
    | tail _ he =>
      have hne : k.same k' = false := by
        rw [Key.same_congr hk, Bool.eq_false_iff]
        intro hsame
        have hapart := hfirst _ he
        rw [Key.same_symm hsame] at hapart
        cases hapart
      rw [hne, if_neg Bool.false_ne_true]
      exact ih hrest he

theorem Distinct.set (h : es.Distinct) (key : Key) (v : α) : (es.set key v).Distinct := by
  rw [distinct_iff_keys] at h ⊢
  rcases keys_set es key v with he | ⟨hnew, he⟩
  · rwa [he]
  · rw [he]
    refine List.pairwise_append.mpr ⟨h, List.pairwise_singleton _ _, fun k hk l hl => ?_⟩
    rw [List.mem_singleton.mp hl, Bool.eq_false_iff]
    intro hsame
    have hapart := hnew k hk
    rw [Key.same_symm hsame] at hapart
    cases hapart

end Entries

end Groundplan
