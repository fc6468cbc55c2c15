/-!
# Work in sequence

What it takes for a sequence of fallible steps to succeed, and where it can fail; when two of them go
alike, and when one fails in a given case only.
-/

namespace Groundplan

variable {ε ε' α β : Type}

/-- A sequence succeeds if its first step does and then the rest. -/
theorem bind_eq_ok {x : Except ε α} {f : α → Except ε β} {b : β} :
    (x >>= f) = .ok b ↔ ∃ a, x = .ok a ∧ f a = .ok b := by
  cases x <;> simp [bind, Except.bind]

/-- A sequence fails in its first step or in the rest. -/
theorem bind_eq_error {x : Except ε α} {f : α → Except ε β} {e : ε} :
    (x >>= f) = .error e ↔ x = .error e ∨ ∃ a, x = .ok a ∧ f a = .error e := by
  cases x <;> simp [bind, Except.bind]

/-- Changing the answer keeps success. -/
theorem map_eq_ok {x : Except ε α} {f : α → β} {b : β} :
    x.map f = .ok b ↔ ∃ a, x = .ok a ∧ f a = b := by
  cases x <;> simp [Except.map]

/-- Changing the answer keeps a failure. -/
theorem map_eq_error {x : Except ε α} {f : α → β} {e : ε} :
    x.map f = .error e ↔ x = .error e := by
  cases x <;> simp [Except.map]

/-- Changing the answer of a sequence changes that of its rest. -/
theorem map_bind {γ : Type} (x : Except ε α) (f : α → Except ε β) (g : β → γ) :
    (x >>= f).map g = x >>= fun a => (f a).map g := by
  cases x <;> rfl

/-- Changing the failure keeps success. -/
theorem mapError_eq_ok {x : Except ε α} {f : ε → ε'} {a : α} :
    x.mapError f = .ok a ↔ x = .ok a := by
  cases x with
  | ok b => exact ⟨fun h => congrArg Except.ok (Except.ok.inj h), fun h => by cases h; rfl⟩
  | error e => exact ⟨fun h => (by cases h), fun h => (by cases h)⟩

/-- Changing the failure changes it where there is one. -/
theorem mapError_eq_error {x : Except ε α} {f : ε → ε'} {e' : ε'} :
    x.mapError f = .error e' ↔ ∃ e, x = .error e ∧ f e = e' := by
  cases x with
  | ok a =>
    refine iff_of_false (fun h => by cases h) ?_
    rintro ⟨_, h, -⟩
    cases h
  | error e =>
    constructor
    · exact fun h => ⟨e, rfl, Except.error.inj h⟩
    · rintro ⟨_, h, rfl⟩
      cases h
      rfl

/-- What a success leaves when the failure is forgotten. -/
theorem toOption_eq_some {x : Except ε α} {a : α} : x.toOption = some a ↔ x = .ok a := by
  cases x <;> simp [Except.toOption]

/-- Both succeed with one answer, or both fail, for causes that are related. -/
inductive AlikeBy (E : ε → ε → Prop) : Except ε α → Except ε α → Prop
  | ok (a : α) : AlikeBy E (.ok a) (.ok a)
  | error {e e' : ε} (h : E e e') : AlikeBy E (.error e) (.error e')

namespace AlikeBy

variable {E : ε → ε → Prop} {x y : Except ε α}

/-- Sequences are alike if their first steps are and, after a success, the rest. -/
theorem bind {f g : α → Except ε β} (h : AlikeBy E x y)
    (hrest : ∀ a, x = .ok a → AlikeBy E (f a) (g a)) : AlikeBy E (x >>= f) (y >>= g) := by
  cases h with
  | ok a => exact hrest a rfl
  | error h => exact .error h

theorem map (f : α → β) (h : AlikeBy E x y) : AlikeBy E (x.map f) (y.map f) := by
  cases h with
  | ok a => exact .ok _
  | error h => exact .error h

theorem mapError {E' : ε' → ε' → Prop} {f : ε → ε'} (h : AlikeBy E x y)
    (hf : ∀ e e', E e e' → E' (f e) (f e')) : AlikeBy E' (x.mapError f) (y.mapError f) := by
  cases h with
  | ok a => exact .ok _
  | error h => exact .error (hf _ _ h)

/-- Work along a list is alike if it is at each item. -/
theorem foldlM {items : List β} {f g : α → β → Except ε α}
    (h : ∀ b ∈ items, ∀ a, AlikeBy E (f a b) (g a b)) (a : α) :
    AlikeBy E (items.foldlM f a) (items.foldlM g a) := by
  induction items generalizing a with
  | nil => exact .ok a
  | cons b bs ih =>
    obtain ⟨hb, hbs⟩ := List.forall_mem_cons.mp h
    rw [List.foldlM_cons, List.foldlM_cons]
    exact (hb a).bind fun a _ => ih hbs a

/-- Results that fail for equal causes are equal. -/
theorem eq (h : AlikeBy Eq x y) : x = y := by
  cases h with
  | ok a => rfl
  | error h => rw [h]

end AlikeBy

/-- A computation fails in one case and in no other, and what it gives has a property. -/
inductive FailsElse (fails : Prop) (P : α → Prop) : Except ε α → Prop
  | failure {e : ε} (h : fails) : FailsElse fails P (.error e)
  | answer {a : α} (h : ¬fails) (ha : P a) : FailsElse fails P (.ok a)

namespace FailsElse

variable {fails fails' : Prop} {P : α → Prop} {Q : β → Prop} {x : Except ε α}

theorem congr (h : FailsElse fails P x) (hfails : fails ↔ fails') : FailsElse fails' P x := by
  cases h with
  | failure hx => exact .failure (hfails.mp hx)
  | answer hx ha => exact .answer (mt hfails.mpr hx) ha

/-- What is given is what there is. -/
theorem self (h : FailsElse fails P x) : FailsElse fails (fun a => x = .ok a) x := by
  cases h with
  | failure hx => exact .failure hx
  | answer hx ha => exact .answer hx rfl

/-- Two computations one after the other fail if either of them does. -/
theorem bind {f : α → Except ε β} (h : FailsElse fails P x)
    (hf : ∀ a, P a → FailsElse fails' Q (f a)) : FailsElse (fails ∨ fails') Q (x >>= f) := by
  cases h with
  | failure hx => exact .failure (.inl hx)
  | answer hx ha => exact (hf _ ha).congr (or_iff_right hx).symm

/-- What is made of an answer fails no more than that. -/
theorem bind_pure {g : α → β} (h : FailsElse fails P x) (hg : ∀ a, P a → Q (g a)) :
    FailsElse fails Q (x >>= fun a => pure (g a)) :=
  (h.bind fun a ha => .answer id (hg a ha)).congr (or_false _).to_iff

theorem mapError (h : FailsElse fails P x) (f : ε → ε') : FailsElse fails P (x.mapError f) := by
  cases h with
  | failure hx => exact .failure hx
  | answer hx ha => exact .answer hx ha

/-- A computation for each item of a list fails if that for one of them does. -/
theorem mapM {items : List α} {f : α → Except ε β} {fails : α → Prop}
    (h : ∀ a ∈ items, FailsElse (fails a) (fun _ => True) (f a)) :
    FailsElse (∃ a ∈ items, fails a) (fun bs => bs.length = items.length) (items.mapM f) := by
  induction items with
  | nil => exact .answer (by simp) rfl
  | cons a items ih =>
    obtain ⟨ha, hitems⟩ := List.forall_mem_cons.mp h
    rw [List.mapM_cons]
    exact (ha.bind fun b _ => (ih hitems).bind_pure fun bs hbs => congrArg (· + 1) hbs).congr
      (by simp)

end FailsElse

end Groundplan
