import Groundplan.Proofs.Datum.Likeness
import Groundplan.Proofs.Datum.Matching
import Groundplan.Proofs.Heap.Reading
import Groundplan.Proofs.Synthesis.Resolution

/-!
# The order of asking

Among finite trees of scalars, to have all that another asks for is a preorder, and two trees ask
for each other exactly if they are equal: mappings whatever the order of their keys, sequences item
by item, numbers by exact value and truth values by themselves. So an answer stays yes where entries
are left out of what is asked for, or added to what is asked.
-/

namespace Groundplan

/-- The exact value of a scalar that is a finite number, in the units of `Binary64.units`. A truth
value is no number. -/
def Scalar.number? : Scalar → Option Int
  | .int i => some (i * (Binary64.unitsPerOne : Int))
  | .float x => x.signedUnits?
  | _ => none

namespace Datum

/-- A finite tree of scalars, in which mappings lead from texts. -/
inductive Tree : Datum → Prop
  | scalar {s : Scalar} (h : ∀ x, s = .float x → x.isFinite = true) : Tree (.scalar s)
  | sequence {fixed : Bool} {items : List Datum} (h : ∀ d ∈ items, Tree d) :
      Tree (.sequence fixed items)
  | mapping {fixed : Bool} {es : Entries Datum} (hes : es.Fields) (h : ∀ e ∈ es, Tree e.2) :
      Tree (.mapping fixed es)

/-- Equal scalars: null, truth values and texts by themselves, numbers by exact value. -/
inductive EqualScalars : Atom → Atom → Prop
  | null : EqualScalars (.scalar .null) (.scalar .null)
  | truth (b : Bool) : EqualScalars (.scalar (.bool b)) (.scalar (.bool b))
  | text (s : String) : EqualScalars (.scalar (.text s)) (.scalar (.text s))
  | number {a b : Scalar} {u : Int} (ha : a.number? = some u) (hb : b.number? = some u) :
      EqualScalars (.scalar a) (.scalar b)

/-! ### Scalars -/

private theorem number?_eq_units? {s : Scalar} (h : ∀ b, s ≠ .bool b) : s.number? = s.units? := by
  cases s with
  | bool b => exact absurd rfl (h b)
  | _ => rfl

private theorem ne_bool_of_number? {s : Scalar} {u : Int} (h : s.number? = some u) (b : Bool) :
    s ≠ .bool b := by
  rintro rfl
  cases h

private theorem equalScalars_self {s : Scalar} (h : Tree (.scalar s)) :
    EqualScalars (.scalar s) (.scalar s) := by
  cases s with
  | null => exact .null
  | bool b => exact .truth b
  | text s => exact .text s
  | int i => exact .number rfl rfl
  | float x =>
    cases h with
    | scalar h =>
      obtain ⟨u, hu⟩ := Option.isSome_iff_exists.mp ((x.signedUnits?_isSome).trans (h x rfl))
      exact .number hu hu

theorem EqualScalars.symm {a b : Atom} (h : EqualScalars a b) : EqualScalars b a := by
  cases h with
  | null => exact .null
  | truth b => exact .truth b
  | text s => exact .text s
  | number ha hb => exact .number hb ha

theorem EqualScalars.trans {a b c : Atom} (h : EqualScalars a b) (h' : EqualScalars b c) :
    EqualScalars a c := by
  cases h with
  | number ha hb =>
    cases h' with
    | number hb' hc =>
      rw [hb] at hb'
      cases hb'
      exact .number ha hc
    | _ => cases hb
  | _ => exact h'

/-- A scalar contains another only if they are equal, if one of them is finite. -/
private theorem equalScalars_of_contains {a b : Scalar}
    (hfinite : Tree (.scalar a) ∨ Tree (.scalar b)) (h : Contains (.scalar a) (.scalar b)) :
    EqualScalars (.scalar a) (.scalar b) := by
  cases h with
  | truth b => exact .truth b
  | atom ha hb h =>
    rcases Scalar.units?_of_eqValue h with rfl | ⟨u, hua, hub⟩
    · exact equalScalars_self (or_self_iff.mp hfinite)
    · refine .number (u := u) ?_ ?_
      · rwa [number?_eq_units? fun b he => ha b (congrArg Atom.scalar he)]
      · rwa [number?_eq_units? fun b he => hb b (congrArg Atom.scalar he)]

theorem EqualScalars.contains {a b : Atom} (h : EqualScalars a b) : Contains (.atom a) (.atom b) := by
  cases h with
  | null => exact .atom (by simp) (by simp) rfl
  | truth b => exact .truth b
  | text s => exact .atom (by simp) (by simp) (beq_self_eq_true s)
  | number ha hb =>
    have hna := ne_bool_of_number? ha
    have hnb := ne_bool_of_number? hb
    refine .atom (by simpa using hna) (by simpa using hnb) ?_
    rw [number?_eq_units? hna] at ha
    rw [number?_eq_units? hnb] at hb
    exact Scalar.eqValue_of_units? ha hb

/-- What contains a scalar, or what a scalar contains, is a scalar. -/
private theorem exists_scalar_of_contains {s : Scalar} {d : Datum} :
    (d.Contains (.scalar s) → ∃ t, d = .scalar t) ∧ (Contains (.scalar s) d → ∃ t, d = .scalar t) := by
  constructor
  · intro h
    cases h with
    | truth b => exact ⟨_, rfl⟩
    | @atom a _ _ _ h =>
      cases a with
      | scalar t => exact ⟨t, rfl⟩
      | _ => cases h
  · intro h
    cases h with
    | truth b => exact ⟨_, rfl⟩
    | @atom _ e _ _ h =>
      cases e with
      | scalar t => exact ⟨t, rfl⟩
      | _ => cases h

/-! ### Trees -/

variable {a b c d : Datum}

theorem Tree.allFields (h : Tree d) : AllFields d := by
  induction h with
  | scalar _ =>
    intro fixed es hw
    cases within_atom.mp hw
  | sequence _ ih =>
    intro fixed es hw
    obtain hw | ⟨d, hd, hw⟩ := within_sequence.mp hw
    · cases hw
    · exact ih d hd hw
  | mapping hes _ ih =>
    intro fixed es hw
    obtain hw | ⟨e, he, hw⟩ := within_mapping.mp hw
    · cases hw
      exact hes
    · exact ih e he hw

theorem Tree.loopFree (h : Tree d) : d.LoopFree := by
  induction h with
  | scalar _ => exact loopFree_atom _
  | sequence _ ih => exact loopFree_sequence.mpr ih
  | mapping _ _ ih => exact loopFree_mapping.mpr ih

/-- A tree holds no references, so it is asked for as it is. -/
theorem Tree.withTokens_eq (h : Tree d) (token : Reference → String) : d.withTokens token = d := by
  induction h with
  | scalar _ => rfl
  | @sequence fixed items _ ih =>
    rw [withTokens, withTokensItems_eq_map, List.map_congr_left ih, List.map_id']
  | @mapping fixed es _ _ ih =>
    rw [withTokens, withTokensEntries_eq_map]
    congr 1
    refine (List.map_congr_left fun e he => ?_).trans (List.map_id' es)
    exact Prod.ext rfl (ih e he)

private theorem mem_zip_iff {as bs : List Datum} {p : Datum × Datum} :
    p ∈ as.zip bs ↔ ∃ i : Nat, as[i]? = some p.1 ∧ bs[i]? = some p.2 := by
  simp only [List.mem_iff_getElem?, List.getElem?_zip_eq_some]

/-- A tree contains itself. -/
theorem Tree.contains_self (h : Tree d) : d.Contains d := by
  induction h with
  | scalar h => exact (equalScalars_self (.scalar h)).contains
  | @sequence _ items _ ih =>
    refine .sequence rfl fun p hp => ?_
    obtain ⟨i, hi, hi'⟩ := mem_zip_iff.mp hp
    rw [hi] at hi'
    rw [← Option.some.inj hi']
    exact ih _ (List.mem_of_getElem? hi)
  | @mapping _ es hes _ ih =>
    have hvalue : ∀ e ∈ es, (es.get? e.1).getD .null = e.2 := fun e he => by
      rw [hes.get?_of_mem (k := e.1) (v := e.2) he]
      rfl
    refine .mapping (fun k => (es.get? k).getD .null) (fun e he => ?_) fun e he => ?_
    · rwa [hvalue e he]
    · rw [hvalue e he]
      exact ih e he

/-- What a tree contains is contained in whatever contains the tree. -/
theorem Contains.trans (hb : Tree b) (hab : a.Contains b) (hbc : b.Contains c) : a.Contains c := by
  -- The tree in the middle is the one that both hypotheses take apart.
  induction hb generalizing a c with
  | scalar hb =>
    obtain ⟨s, rfl⟩ := exists_scalar_of_contains.1 hab
    obtain ⟨t, rfl⟩ := exists_scalar_of_contains.2 hbc
    exact ((equalScalars_of_contains (.inr (.scalar hb)) hab).trans
      (equalScalars_of_contains (.inl (.scalar hb)) hbc)).contains
  | @sequence _ bs _ ih =>
    cases hab with
    | @sequence _ _ as _ hlength h =>
      cases hbc with
      | @sequence _ _ _ cs hlength' h' =>
        refine .sequence (hlength.trans hlength') fun p hp => ?_
        obtain ⟨i, ha, hc⟩ := mem_zip_iff.mp hp
        obtain ⟨x, hx⟩ : ∃ x, bs[i]? = some x := by
          have hlt := (List.getElem?_eq_some_iff.mp ha).1
          exact ⟨_, List.getElem?_eq_getElem (hlength ▸ hlt)⟩
        exact ih x (List.mem_of_getElem? hx) (h (p.1, x) (mem_zip_iff.mpr ⟨i, ha, hx⟩))
          (h' (x, p.2) (mem_zip_iff.mpr ⟨i, hx, hc⟩))
  | @mapping _ bs _ _ ih =>
    cases hab with
    | mapping value hmem h =>
      cases hbc with
      | mapping value' hmem' h' =>
        refine .mapping value (fun e he => hmem (e.1, value' e.1) (hmem' e he)) fun e he => ?_
        exact ih _ (hmem' e he) (h _ (hmem' e he)) (h' e he)

/-- What is left of a tree without some entries is contained in it. -/
theorem Pruned.contains (hd : Tree a) (h : a.Pruned b) : a.Contains b := by
  induction h with
  | atom a =>
    cases hd with
    | scalar hs => exact (equalScalars_self (.scalar hs)).contains
  | sequence hlength _ ih =>
    cases hd with
    | sequence hitems =>
      exact .sequence hlength fun p hp => ih p hp (hitems _ (List.of_mem_zip hp).1)
  | mapping value hmem _ ih =>
    cases hd with
    | mapping _ hes => exact .mapping value hmem fun e he => ih e he (hes _ (hmem e he))

/-! ### Equal trees -/

private theorem keys_subset {f g : Bool} {as bs : Entries Datum}
    (h : Contains (.mapping f as) (.mapping g bs)) : bs.keys ⊆ as.keys := by
  cases h with
  | mapping value hmem _ =>
    intro k hk
    obtain ⟨e, he, rfl⟩ := List.mem_map.mp hk
    exact List.mem_map.mpr ⟨_, hmem e he, rfl⟩

/-- What a key leads to in a mapping of fields contains what it leads to in one that is contained. -/
private theorem contains_of_get? {f g : Bool} {as bs : Entries Datum} (has : as.Fields)
    (hbs : bs.Fields) (h : Contains (.mapping f as) (.mapping g bs)) {k : Key} {x y : Datum}
    (hx : as.get? k = some x) (hy : bs.get? k = some y) : x.Contains y := by
  cases h with
  | mapping value hmem h =>
    have he := hbs.get?_eq_some.mp hy
    have hvalue := has.get?_of_mem (hmem _ he)
    rw [hx] at hvalue
    rw [Option.some.inj hvalue]
    exact h _ he

/-- Trees that contain each other are equal. -/
theorem like_of_contains (ha : Tree a) (hb : Tree b) (hab : a.Contains b) (hba : b.Contains a) :
    Like EqualScalars a b := by
  induction ha generalizing b with
  | scalar ha =>
    obtain ⟨t, rfl⟩ := exists_scalar_of_contains.2 hab
    exact .atom (equalScalars_of_contains (.inl (.scalar ha)) hab)
  | @sequence _ as _ ih =>
    cases hab with
    | @sequence _ _ _ bs hlength h =>
      cases hba with
      | sequence _ h' =>
        cases hb with
        | sequence hbs =>
          refine .sequence hlength fun i x y hx hy => ?_
          exact ih x (List.mem_of_getElem? hx) (hbs y (List.mem_of_getElem? hy))
            (h (x, y) (mem_zip_iff.mpr ⟨i, hx, hy⟩)) (h' (y, x) (mem_zip_iff.mpr ⟨i, hy, hx⟩))
  | @mapping _ as has _ ih =>
    cases hb with
    | sequence => cases hab
    | scalar => cases hab
    | @mapping _ bs hbs hvalues =>
      -- Each mapping has the keys of the other, in whatever order; so neither has more.
      have hsub := keys_subset hab
      have hsub' := keys_subset hba
      have hperm : as.keys.Perm bs.keys :=
        (List.perm_ext_iff_of_nodup has.nodup_keys hbs.nodup_keys).mpr fun k =>
          ⟨fun hk => hsub' hk, fun hk => hsub hk⟩
      refine .mapping (by simpa [Entries.keys] using hperm.length_eq) (fun k => ?_) ?_
      · rw [Entries.has_eq_any_keys, Entries.has_eq_any_keys, hperm.any_eq]
      · intro k x y hx hy
        have hxmem := has.get?_eq_some.mp hx
        have hymem := hbs.get?_eq_some.mp hy
        exact ih _ hxmem (hvalues _ hymem) (contains_of_get? has hbs hab hx hy)
          (contains_of_get? hbs has hba hy hx)

/-- A tree contains what it is equal to. -/
theorem Like.contains (ha : Tree a) (hb : Tree b) (h : Like EqualScalars a b) : a.Contains b := by
  induction h with
  | atom h => exact h.contains
  | loop => cases ha
  | sequence hlength _ ih =>
    cases ha with
    | sequence has =>
      cases hb with
      | sequence hbs =>
        refine .sequence hlength fun p hp => ?_
        obtain ⟨i, hx, hy⟩ := mem_zip_iff.mp hp
        exact ih i _ _ hx hy (has _ (List.mem_of_getElem? hx)) (hbs _ (List.mem_of_getElem? hy))
  | @mapping _ _ as bs _ hkeys _ ih =>
    cases ha with
    | mapping has hvalues =>
      cases hb with
      | mapping hbs hvalues' =>
        have hfound : ∀ e ∈ bs, ∃ x, as.get? e.1 = some x := fun e he => by
          have hget := hbs.get?_of_mem (k := e.1) (v := e.2) he
          have hkey := hkeys e.1
          rw [Entries.has_eq_isSome_get?, Entries.has_eq_isSome_get?, hget] at hkey
          exact Option.isSome_iff_exists.mp hkey
        refine .mapping (fun k => (as.get? k).getD .null) (fun e he => ?_) fun e he => ?_
        · obtain ⟨x, hx⟩ := hfound e he
          rw [hx]
          exact has.get?_eq_some.mp hx
        · obtain ⟨x, hx⟩ := hfound e he
          rw [hx]
          exact ih e.1 x e.2 hx (hbs.get?_of_mem he) (hvalues _ (has.get?_eq_some.mp hx))
            (hvalues' e he)

/-- Trees contain each other exactly if they are equal. -/
theorem contains_antisymm_iff (ha : Tree a) (hb : Tree b) :
    a.Contains b ∧ b.Contains a ↔ Like EqualScalars a b := by
  constructor
  · rintro ⟨hab, hba⟩
    exact like_of_contains ha hb hab hba
  · intro h
    exact ⟨h.contains ha hb, Like.contains hb ha (h.symm.imp_within fun _ _ _ h => h.symm)⟩

end Datum

end Groundplan
