import Groundplan.Proofs.Datum.Relabelling
import Groundplan.Proofs.Datum.Sameness

/-!
# Likeness

Two data are alike if they have one shape and their atoms are related: sequences item by item,
mappings key by key whatever the order of their entries. Where no key comes twice, data of scalars
are alike exactly if they are the same. So to be the same does not depend on the order of entries,
nor on which of two data is asked about the other.
-/

namespace Groundplan

namespace Datum

variable {R S T : Atom → Atom → Prop} {d d' d'' : Datum}

/-- Data of one shape, fixed or not, with related atoms and whatever the order of entries. -/
inductive Like (R : Atom → Atom → Prop) : Datum → Datum → Prop
  | atom {a b : Atom} (h : R a b) : Like R (.atom a) (.atom b)
  | loop (c c' : Container) : Like R (.loop c) (.loop c')
  | sequence {f f' : Bool} {items items' : List Datum} (hlength : items.length = items'.length)
      (hitems : ∀ (i : Nat) (d d' : Datum),
        items[i]? = some d → items'[i]? = some d' → Like R d d') :
      Like R (.sequence f items) (.sequence f' items')
  | mapping {f f' : Bool} {es es' : Entries Datum} (hlength : es.length = es'.length)
      (hkeys : ∀ k, es.has k = es'.has k)
      (hvalues : ∀ (k : Key) (d d' : Datum),
        es.get? k = some d → es'.get? k = some d' → Like R d d') :
      Like R (.mapping f es) (.mapping f' es')

/-- No mapping in the datum has a key twice. -/
def Keyed (d : Datum) : Prop := d.AllKeys fun ks => ks.Pairwise fun k l => k.same l = false

theorem keyed_sequence {fixed : Bool} {items : List Datum} :
    Keyed (.sequence fixed items) ↔ ∀ d ∈ items, d.Keyed :=
  everywhere_sequence.trans (and_iff_right .nil)

theorem keyed_mapping {fixed : Bool} {es : Entries Datum} :
    Keyed (.mapping fixed es) ↔ es.Distinct ∧ ∀ e ∈ es, e.2.Keyed := by
  rw [Entries.distinct_iff_keys]
  exact everywhere_mapping

/-- A datum that a key leads to stands in the mapping. -/
private theorem exists_mem_of_get? {es : Entries Datum} {k : Key} {x : Datum}
    (h : es.get? k = some x) : ∃ e ∈ es, e.2 = x := by
  obtain ⟨l, he, -⟩ := Entries.exists_mem_of_get? h
  exact ⟨(l, x), he, rfl⟩

/-- Where the same keys are there, a key that leads somewhere does so in both. -/
private theorem exists_get?_of_has_eq {es es' : Entries Datum} {k : Key}
    (hkeys : es.has k = es'.has k) {x : Datum} (h : es.get? k = some x) :
    ∃ x', es'.get? k = some x' := by
  rw [Entries.has_eq_isSome_get?, Entries.has_eq_isSome_get?, h] at hkeys
  exact Option.isSome_iff_exists.mp hkeys.symm

private theorem within_of_get? {fixed : Bool} {es : Entries Datum} {k : Key} {x y : Datum}
    (h : es.get? k = some x) (hy : Within y x) : Within y (.mapping fixed es) := by
  obtain ⟨e, he, rfl⟩ := exists_mem_of_get? h
  exact .entry he hy

namespace Like

theorem symm (h : Like R d d') : Like (fun a b => R b a) d' d := by
  induction h with
  | atom h => exact .atom h
  | loop c c' => exact .loop c' c
  | sequence hlength _ ih => exact .sequence hlength.symm fun i d d' hd hd' => ih i d' d hd' hd
  | mapping hlength hkeys _ ih =>
    exact .mapping hlength.symm (fun k => (hkeys k).symm) fun k d d' hd hd' => ih k d' d hd' hd

theorem trans (h : Like R d d') (h' : Like S d' d'') (hT : ∀ a b c, R a b → S b c → T a c) :
    Like T d d'' := by
  induction h generalizing d'' with
  | atom h =>
    cases h' with
    | atom h' => exact .atom (hT _ _ _ h h')
  | loop c c' =>
    cases h' with
    | loop _ c'' => exact .loop c c''
  | @sequence _ _ items items' hlength _ ih =>
    cases h' with
    | @sequence _ _ _ items'' hlength' hitems' =>
      refine .sequence (hlength.trans hlength') fun i d d'' hd hd'' => ?_
      obtain ⟨d', hd'⟩ : ∃ d', items'[i]? = some d' := by
        have hlt := (List.getElem?_eq_some_iff.mp hd).1
        exact ⟨_, List.getElem?_eq_getElem (hlength ▸ hlt)⟩
      exact ih i d d' hd hd' (hitems' i d' d'' hd' hd'')
  | @mapping _ _ es es' hlength hkeys _ ih =>
    cases h' with
    | @mapping _ _ _ es'' hlength' hkeys' hvalues' =>
      refine .mapping (hlength.trans hlength') (fun k => (hkeys k).trans (hkeys' k)) ?_
      intro k d d'' hd hd''
      obtain ⟨d', hd'⟩ := exists_get?_of_has_eq (hkeys k) hd
      exact ih k d d' hd hd' (hvalues' k d' d'' hd' hd'')

/-- Only the atoms that stand in the data matter. -/
theorem imp_within (h : Like R d d') (hS : ∀ a b, Within (.atom a) d → R a b → S a b) :
    Like S d d' := by
  induction h with
  | atom h => exact .atom (hS _ _ (.refl _) h)
  | loop c c' => exact .loop c c'
  | sequence hlength _ ih =>
    refine .sequence hlength fun i d d' hd hd' => ih i d d' hd hd' fun a b ha => hS a b ?_
    exact .item (List.mem_of_getElem? hd) ha
  | mapping hlength hkeys _ ih =>
    refine .mapping hlength hkeys fun k d d' hd hd' => ih k d d' hd hd' fun a b ha => hS a b ?_
    exact within_of_get? hd ha

/-- Changes that keep containers and their keys keep data alike. -/
theorem relabel {F F' : Datum → Datum} (hF : Relabels F) (hF' : Relabels F')
    (hatom : ∀ a b, R a b → Like S (F (.atom a)) (F' (.atom b))) (h : Like R d d') :
    Like S (F d) (F' d') := by
  induction h with
  | atom h => exact hatom _ _ h
  | loop c c' =>
    rw [hF.loop, hF'.loop]
    exact .loop c c'
  | @sequence f f' items items' hlength _ ih =>
    obtain ⟨_, he⟩ := hF.sequence f items
    obtain ⟨_, he'⟩ := hF'.sequence f' items'
    rw [he, he']
    refine .sequence (by simpa using hlength) fun i d d' hd hd' => ?_
    rw [List.getElem?_map] at hd hd'
    obtain ⟨x, hx, rfl⟩ := Option.map_eq_some_iff.mp hd
    obtain ⟨x', hx', rfl⟩ := Option.map_eq_some_iff.mp hd'
    exact ih i x x' hx hx'
  | @mapping f f' es es' hlength hkeys _ ih =>
    obtain ⟨_, he⟩ := hF.mapping f es
    obtain ⟨_, he'⟩ := hF'.mapping f' es'
    rw [he, he']
    refine .mapping (by simpa [Entries.mapValues] using hlength) (fun k => ?_) ?_
    · simpa only [Entries.has_eq_any_keys, Entries.keys_mapValues] using hkeys k
    · intro k d d' hd hd'
      rw [Entries.get?_mapValues] at hd hd'
      obtain ⟨x, hx, rfl⟩ := Option.map_eq_some_iff.mp hd
      obtain ⟨x', hx', rfl⟩ := Option.map_eq_some_iff.mp hd'
      exact ih k x x' hx hx'

/-- What a name leads to in data that are alike is alike, or stands in both for what it leads to. -/
theorem getD_field? (h : Like R d d') {x x' : Datum} (hx : Like R x x') (name : String) :
    Like R ((d.field? name).getD x) ((d'.field? name).getD x') := by
  cases h with
  | @mapping _ _ es es' _ hkeys hvalues =>
    show Like R ((es.get? (.text name)).getD x) ((es'.get? (.text name)).getD x')
    cases hd : es.get? (.text name) with
    | none =>
      cases hd' : es'.get? (.text name) with
      | none => exact hx
      | some d' =>
        obtain ⟨d, he⟩ := exists_get?_of_has_eq (hkeys _).symm hd'
        rw [hd] at he
        cases he
    | some d =>
      obtain ⟨d', hd'⟩ := exists_get?_of_has_eq (hkeys _) hd
      rw [hd']
      exact hvalues _ _ _ hd hd'
  | _ => exact hx

/-- Where no key comes twice, what stands in the second datum has its like in the first. -/
theorem exists_within (h : Like R d d') (hd' : d'.Keyed) {x' : Datum} (hx' : Within x' d') :
    ∃ x, Within x d ∧ Like R x x' := by
  induction h with
  | atom h =>
    cases within_atom.mp hx'
    exact ⟨_, .refl _, .atom h⟩
  | loop c c' =>
    cases within_loop.mp hx'
    exact ⟨_, .refl _, .loop c c'⟩
  | @sequence _ _ items items' hlength hitems ih =>
    rcases within_sequence.mp hx' with rfl | ⟨y', hy', hx'⟩
    · exact ⟨_, .refl _, .sequence hlength hitems⟩
    · obtain ⟨i, hlt, rfl⟩ := List.mem_iff_getElem.mp hy'
      have hlt' : i < items.length := hlength ▸ hlt
      obtain ⟨x, hx, hlike⟩ := ih i _ _ (List.getElem?_eq_getElem hlt')
        (List.getElem?_eq_getElem hlt) (keyed_sequence.mp hd' _ hy') hx'
      exact ⟨x, .item (List.getElem_mem hlt') hx, hlike⟩
  | @mapping _ _ es es' hlength hkeys hvalues ih =>
    rcases within_mapping.mp hx' with rfl | ⟨⟨k, y'⟩, hy', hx'⟩
    · exact ⟨_, .refl _, .mapping hlength hkeys hvalues⟩
    · obtain ⟨hdistinct, hkeyed⟩ := keyed_mapping.mp hd'
      have hget := hdistinct.get?_of_mem hy' (Key.same_self k)
      obtain ⟨y, hy⟩ := exists_get?_of_has_eq (hkeys k).symm hget
      obtain ⟨x, hx, hlike⟩ := ih k y y' hy hget (hkeyed _ hy') hx'
      exact ⟨x, within_of_get? hy hx, hlike⟩

/-- Where no key comes twice, an atom of the second datum has its like in the first. -/
theorem exists_atom (h : Like R d d') (hd' : d'.Keyed) {b : Atom} (hb : Within (.atom b) d') :
    ∃ a, Within (.atom a) d ∧ R a b := by
  obtain ⟨x, hx, hlike⟩ := h.exists_within hd' hb
  cases hlike with
  | atom hab => exact ⟨_, hx, hab⟩

/-- Where no key comes twice, a datum that is like one without loops has none. -/
theorem loopFree (h : Like R d d') (hd' : d'.Keyed) (hd : d.LoopFree) : d'.LoopFree := by
  intro c hc
  obtain ⟨x, hx, hlike⟩ := h.exists_within hd' hc
  cases hlike with
  | loop c' => exact hd c' hx

end Like

section Same

/-- Scalars that are the same. -/
inductive SameScalars : Atom → Atom → Prop
  | scalar {a b : Scalar} (h : a.same b = true) : SameScalars (.scalar a) (.scalar b)

theorem Like.symm_same (h : Like SameScalars d d') : Like SameScalars d' d := by
  refine h.symm.imp_within fun a b _ hab => ?_
  cases hab with
  | scalar h => exact .scalar (Scalar.same_symm h)

theorem Like.trans_same (h : Like SameScalars d d') (h' : Like SameScalars d' d'') :
    Like SameScalars d d'' := by
  refine h.trans h' fun a b c hab hbc => ?_
  cases hab with
  | scalar h =>
    cases hbc with
    | scalar h' => exact .scalar (Scalar.same_trans h h')

private theorem sameItems_iff {items items' : List Datum} :
    sameItems items items' = true ↔ items.length = items'.length ∧
      ∀ (i : Nat) (d d' : Datum), items[i]? = some d → items'[i]? = some d' →
        d.same d' = true := by
  induction items generalizing items' with
  | nil => cases items' <;> simp [sameItems]
  | cons a items ih =>
    cases items' with
    | nil => simp [sameItems]
    | cons b items' =>
      rw [sameItems, Bool.and_eq_true, ih]
      constructor
      · rintro ⟨hab, hlength, hitems⟩
        refine ⟨congrArg (· + 1) hlength, fun i d d' hd hd' => ?_⟩
        cases i with
        | zero =>
          cases hd
          cases hd'
          exact hab
        | succ i => exact hitems i d d' hd hd'
      · rintro ⟨hlength, hitems⟩
        exact ⟨hitems 0 a b rfl rfl, Nat.succ.inj hlength, fun i => hitems (i + 1)⟩

private theorem sameEntries_iff {es : List (Key × Datum)} {es' : Entries Datum} :
    sameEntries es es' = true ↔
      ∀ e ∈ es, ∃ d', es'.get? e.1 = some d' ∧ e.2.same d' = true := by
  induction es with
  | nil => simp [sameEntries]
  | cons e es ih =>
    obtain ⟨k, a⟩ := e
    rw [sameEntries, Bool.and_eq_true, ih, List.forall_mem_cons]
    apply and_congr_left'
    cases es'.get? k <;> simp

/-- Mappings are the same if they are of one size and what each key of the first leads to is the
same in the second. -/
theorem same_mapping_iff {f f' : Bool} {es es' : Entries Datum} :
    (mapping f es).same (mapping f' es') = true ↔ es.length = es'.length ∧
      ∀ e ∈ es, ∃ d', es'.get? e.1 = some d' ∧ e.2.same d' = true := by
  rw [same, Bool.and_eq_true, beq_iff_eq, sameEntries_iff]

/-- If each of some things that are told apart has its own among no more others, none of these is left
without one. -/
private theorem exists_of_forall_exists {α β : Type} {R : α → β → Prop} {as : List α} {bs : List β}
    (hlength : bs.length ≤ as.length) (hR : ∀ a ∈ as, ∃ b ∈ bs, R a b)
    (hapart : as.Pairwise fun a a' => ∀ b, R a b → ¬ R a' b) : ∀ b ∈ bs, ∃ a ∈ as, R a b := by
  induction as generalizing bs with
  | nil =>
    intro b hb
    rw [List.eq_nil_of_length_eq_zero (Nat.le_zero.mp hlength)] at hb
    cases hb
  | cons a as ih =>
    obtain ⟨hfirst, hrest⟩ := List.pairwise_cons.mp hapart
    obtain ⟨⟨b, hb, hab⟩, hR⟩ := List.forall_mem_cons.mp hR
    obtain ⟨before, after, rfl⟩ := List.append_of_mem hb
    have hleft : ∀ b' ∈ before ++ after, ∃ a' ∈ as, R a' b' := by
      refine ih ?_ (fun a' ha' => ?_) hrest
      · simp only [List.length_append, List.length_cons] at hlength ⊢
        omega
      · obtain ⟨b', hb', hab'⟩ := hR a' ha'
        have hne : b' ≠ b := fun he => hfirst a' ha' b hab (he ▸ hab')
        exact ⟨b', by simpa [hne] using hb', hab'⟩
    intro b' hb'
    by_cases he : b' = b
    · exact ⟨a, List.mem_cons_self, he ▸ hab⟩
    · obtain ⟨a', ha', hab'⟩ := hleft b' (by simpa [he] using hb')
      exact ⟨a', List.mem_cons_of_mem _ ha', hab'⟩

/-- Where no key comes twice in the first of two mappings of one size and each of its keys is in the
second, they have the same keys. -/
private theorem has_eq_of_subset {es es' : Entries Datum} (hes : es.Distinct)
    (hlength : es.length = es'.length) (hsub : ∀ e ∈ es, es'.has e.1 = true) (k : Key) :
    es.has k = es'.has k := by
  have hfound : ∀ e ∈ es, ∃ e' ∈ es', e.1.same e'.1 = true := fun e he =>
    List.any_eq_true.mp (hsub e he)
  have hback : ∀ e' ∈ es', ∃ e ∈ es, e.1.same e'.1 = true := by
    refine exists_of_forall_exists (Nat.le_of_eq hlength.symm) hfound ?_
    refine hes.imp fun hapart e' hsame hsame' => ?_
    rw [Key.same_trans hsame (Key.same_symm hsame')] at hapart
    cases hapart
  rw [Bool.eq_iff_iff, Entries.has, Entries.has, List.any_eq_true, List.any_eq_true]
  constructor
  · rintro ⟨e, he, hk⟩
    obtain ⟨e', he', hsame⟩ := hfound e he
    exact ⟨e', he', Key.same_trans hk hsame⟩
  · rintro ⟨e', he', hk⟩
    obtain ⟨e, he, hsame⟩ := hback e' he'
    exact ⟨e, he, Key.same_trans hk (Key.same_symm hsame)⟩

/-- Data that are the same are alike, where the first has no atoms but scalars and no key twice. -/
theorem like_of_same (hscalar : ∀ a, Within (.atom a) d → ∃ s, a = .scalar s) (hkeyed : d.Keyed)
    (h : d.same d' = true) : Like SameScalars d d' := by
  induction d using Datum.induction generalizing d' with
  | atom a =>
    obtain ⟨s, rfl⟩ := hscalar a (.refl _)
    cases d' with
    | atom b =>
      cases b with
      | scalar t => exact .atom (.scalar h)
      | _ => cases h
    | _ => cases h
  | loop c => cases h
  | sequence f items ih =>
    cases d' with
    | sequence f' items' =>
      rw [same, Bool.and_eq_true] at h
      obtain ⟨hlength, hitems⟩ := sameItems_iff.mp h.2
      refine .sequence hlength fun i x x' hx hx' => ?_
      have hmem := List.mem_of_getElem? hx
      exact ih x hmem (fun a ha => hscalar a (.item hmem ha)) (keyed_sequence.mp hkeyed x hmem)
        (hitems i x x' hx hx')
    | _ => cases h
  | mapping f es ih =>
    cases d' with
    | mapping f' es' =>
      obtain ⟨hlength, hentries⟩ := same_mapping_iff.mp h
      obtain ⟨hdistinct, hkeyed⟩ := keyed_mapping.mp hkeyed
      have hsub : ∀ e ∈ es, Entries.has es' e.1 = true := fun e he => by
        obtain ⟨x', hx', -⟩ := hentries e he
        rw [Entries.has_eq_isSome_get?, hx']
        rfl
      refine .mapping hlength (has_eq_of_subset hdistinct hlength hsub) fun k x x' hx hx' => ?_
      obtain ⟨l, hmem, hkl⟩ := Entries.exists_mem_of_get? hx
      obtain ⟨y', hy', hsame⟩ := hentries _ hmem
      rw [Entries.get?_congr hkl, hy'] at hx'
      cases hx'
      exact ih _ hmem (fun a ha => hscalar a (.entry hmem ha)) (hkeyed _ hmem) hsame
    | _ => cases h

/-- Data without loops that are alike are the same once both are fixed or both are open. -/
theorem same_of_like (h : Like SameScalars d d') (hkeyed : d.Keyed) (hloop : d.LoopFree)
    (fixed : Bool) : (d.withFixed fixed).same (d'.withFixed fixed) = true := by
  induction h with
  | atom h =>
    cases h with
    | scalar h => exact h
  | loop c => exact absurd hloop (not_loopFree_loop c)
  | @sequence f f' items items' hlength _ ih =>
    rw [keyed_sequence] at hkeyed
    rw [loopFree_sequence] at hloop
    simp only [withFixed, withFixedItems_eq_map, same, beq_self_eq_true, Bool.true_and]
    refine sameItems_iff.mpr ⟨by simpa using hlength, fun i d d' hd hd' => ?_⟩
    rw [List.getElem?_map] at hd hd'
    obtain ⟨x, hx, rfl⟩ := Option.map_eq_some_iff.mp hd
    obtain ⟨x', hx', rfl⟩ := Option.map_eq_some_iff.mp hd'
    have hmem := List.mem_of_getElem? hx
    exact ih i x x' hx hx' (hkeyed x hmem) (hloop x hmem)
  | @mapping f f' es es' hlength hkeys _ ih =>
    obtain ⟨hdistinct, hkeyed⟩ := keyed_mapping.mp hkeyed
    rw [loopFree_mapping] at hloop
    simp only [withFixed, withFixedEntries_eq_map]
    refine same_mapping_iff.mpr ⟨by simpa using hlength, fun e he => ?_⟩
    obtain ⟨⟨k, x⟩, hmem, rfl⟩ := List.mem_map.mp he
    have hx := hdistinct.get?_of_mem hmem (Key.same_self k)
    obtain ⟨x', hx'⟩ := exists_get?_of_has_eq (hkeys k) hx
    refine ⟨x'.withFixed fixed, ?_, ih k x x' hx hx' (hkeyed _ hmem) (hloop _ hmem)⟩
    exact (Entries.get?_mapValues _ es' k).trans (congrArg _ hx')

end Same

end Datum

end Groundplan
