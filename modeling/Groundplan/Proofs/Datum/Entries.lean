import Groundplan.Datum.Basic

/-!
# Entries under their keys

What setting an entry does to keys and values, and what is found under a key. Fields are entries whose
keys are texts of which none comes twice: each of them is found under its key.
-/

namespace Groundplan

/-- The text that a key is makes up the key. -/
theorem Key.text?_eq_some {k : Key} {s : String} : k.text? = some s ↔ k = .text s := by
  unfold Key.text?
  split
  · simp
  · next hk =>
    simp only [reduceCtorEq, false_iff]
    exact hk s

/-- Only a text key is the same as a text key. -/
theorem Key.eq_text_of_same {k : Key} {s : String} (h : k.same (.text s) = true) : k = .text s := by
  cases k with
  | scalar a => cases a <;> simp_all [same, Scalar.same, Scalar.eqValue]
  | _ => simp [same] at h

namespace Entries

variable {α β : Type}

/-- What an entry is set to is the only new value. -/
theorem mem_values_set {es : Entries α} {key : Key} {v u : α} (hu : u ∈ (es.set key v).values) :
    u ∈ es.values ∨ u = v := by
  induction es with
  | nil =>
    simp only [set, values, List.map_cons, List.map_nil, List.mem_singleton] at hu
    exact .inr hu
  | cons e rest ih =>
    obtain ⟨k, x⟩ := e
    rw [set] at hu
    split at hu
    · simp only [values, List.map_cons, List.mem_cons] at hu ⊢
      rcases hu with hu | hu
      · exact .inr hu
      · exact .inl (.inr hu)
    · simp only [values, List.map_cons, List.mem_cons] at hu ⊢
      rcases hu with hu | hu
      · exact .inl (.inl hu)
      · rcases ih hu with hu | hu
        · exact .inl (.inr hu)
        · exact .inr hu

/-- No two keys are the same. -/
def Distinct (es : Entries α) : Prop := es.Pairwise fun a b => a.1.same b.1 = false

instance (es : Entries α) : Decidable es.Distinct :=
  inferInstanceAs (Decidable (es.Pairwise fun a b => a.1.same b.1 = false))

/-- No text is a key twice. -/
def TextsOnce (es : Entries α) : Prop := (es.keys.filterMap Key.text?).Nodup

/-- Texts are told apart by comparing keys. -/
theorem textsOnce_of_distinct {es : Entries α} (h : es.Distinct) :
    es.TextsOnce := by
  rw [TextsOnce, keys, List.filterMap_map, List.nodup_iff_pairwise_ne]
  refine List.pairwise_filterMap.mpr (h.imp fun {a b} hab s hs t ht he => ?_)
  have ha : a.1 = .text s := Key.text?_eq_some.mp hs
  have hb : b.1 = .text t := Key.text?_eq_some.mp ht
  rw [ha, hb, he, Key.same_text, beq_self_eq_true] at hab
  cases hab

/-- Keys with one more at their end, unless one of them is the same. -/
def withKey (keys : List Key) (key : Key) : List Key :=
  if keys.any key.same then keys else keys ++ [key]

theorem keys_set_eq (es : Entries α) (key : Key) (v : α) :
    (es.set key v).keys = withKey es.keys key := by
  induction es with
  | nil => rfl
  | cons e rest ih =>
    obtain ⟨k, x⟩ := e
    have hcons (y : α) (es : Entries α) : Entries.keys ((k, y) :: es) = k :: es.keys := rfl
    rw [set, withKey, hcons, List.any_cons]
    split
    · next hk => rw [hk, Bool.true_or, if_pos rfl, hcons]
    · next hk =>
      rw [Bool.eq_false_iff.mpr hk, Bool.false_or, hcons, ih, withKey]
      split <;> rfl

/-- Setting an entry changes no key, or adds one that was not there. -/
theorem keys_set (es : Entries α) (key : Key) (v : α) :
    (es.set key v).keys = es.keys ∨
      ((∀ k ∈ es.keys, key.same k = false) ∧ (es.set key v).keys = es.keys ++ [key]) := by
  rw [keys_set_eq, withKey]
  split
  · exact .inl rfl
  · next hnew =>
    refine .inr ⟨fun k hk => Bool.eq_false_iff.mpr fun hsame => hnew ?_, rfl⟩
    exact List.any_eq_true.mpr ⟨k, hk, hsame⟩

private theorem any_same_text (keys : List Key) (s : String) :
    keys.any (Key.text s).same = true ↔ .text s ∈ keys := by
  rw [List.any_eq_true]
  constructor
  · rintro ⟨k, hk, hsame⟩
    exact Key.same_text_eq_true hsame ▸ hk
  · exact fun hs => ⟨_, hs, by simp⟩

theorem withKey_text_of_mem {keys : List Key} {s : String} (h : .text s ∈ keys) :
    withKey keys (.text s) = keys := if_pos ((any_same_text keys s).mpr h)

theorem withKey_text_of_not_mem {keys : List Key} {s : String} (h : .text s ∉ keys) :
    withKey keys (.text s) = keys ++ [.text s] := if_neg (mt (any_same_text keys s).mp h)

theorem mem_withKey_text {keys : List Key} {s : String} {k : Key} :
    k ∈ withKey keys (.text s) ↔ k ∈ keys ∨ k = .text s := by
  by_cases hs : .text s ∈ keys
  · rw [withKey_text_of_mem hs]
    exact ⟨.inl, Or.rec id fun he => he ▸ hs⟩
  · rw [withKey_text_of_not_mem hs, List.mem_append, List.mem_singleton]

/-- Which of two texts comes first as a key matters only to the order. -/
theorem withKey_text_comm (keys : List Key) (s t : String) :
    (withKey (withKey keys (.text s)) (.text t)).Perm
      (withKey (withKey keys (.text t)) (.text s)) := by
  by_cases hs : .text s ∈ keys
  · rw [withKey_text_of_mem hs, withKey_text_of_mem (mem_withKey_text.mpr (.inl hs))]
  by_cases ht : .text t ∈ keys
  · rw [withKey_text_of_mem ht, withKey_text_of_mem (mem_withKey_text.mpr (.inl ht))]
  by_cases he : s = t
  · rw [he]
  have hst : Key.text s ≠ .text t := by simpa using he
  rw [withKey_text_of_not_mem (s := t) (mt mem_withKey_text.mp (by simp [ht, hst.symm])),
    withKey_text_of_not_mem (s := s) (mt mem_withKey_text.mp (by simp [hs, hst])),
    withKey_text_of_not_mem hs, withKey_text_of_not_mem ht, List.append_assoc, List.append_assoc]
  exact (List.Perm.swap _ _ []).append_left keys

theorem TextsOnce.set {es : Entries α} (h : es.TextsOnce) (key : Key) (v : α) :
    (es.set key v).TextsOnce := by
  unfold TextsOnce at *
  rcases keys_set es key v with he | ⟨hnew, he⟩
  · rwa [he]
  · rw [he, List.filterMap_append]
    refine List.nodup_append.mpr ⟨h, ?_, ?_⟩
    · cases hk : key.text? <;> simp [hk]
    · intro s hs t ht hst
      obtain ⟨k, hk, hks⟩ := List.mem_filterMap.mp hs
      obtain ⟨k', hk', hkt⟩ := List.mem_filterMap.mp ht
      obtain rfl := List.mem_singleton.mp hk'
      have hnew := hnew k hk
      rw [Key.text?_eq_some.mp hks, Key.text?_eq_some.mp hkt, hst, Key.same_text,
        beq_self_eq_true] at hnew
      cases hnew

/-- Changing all values keeps the keys. -/
@[simp] theorem keys_mapValues (f : α → β) (es : Entries α) : (es.mapValues f).keys = es.keys := by
  rw [keys, mapValues, List.map_map]
  rfl

/-- What a key leads to is changed like all values. -/
theorem get?_mapValues (f : α → β) (es : Entries α) (key : Key) :
    (es.mapValues f).get? key = (es.get? key).map f := by
  simp [get?, mapValues, List.find?_map, Function.comp_def]

/-- Values are changed alike if each is. -/
theorem mapValues_congr {f g : α → β} {es : Entries α} (h : ∀ a ∈ es.values, g a = f a) :
    es.mapValues g = es.mapValues f := by
  apply List.map_congr_left
  intro e he
  exact congrArg (Prod.mk e.1) (h e.2 (List.mem_map_of_mem he))

/-- Whether a key is there depends on the keys alone. -/
theorem has_eq_any_keys (es : Entries α) (key : Key) : es.has key = es.keys.any key.same := by
  rw [has, keys, List.any_map]
  rfl

/-- A key stays where another is set. -/
theorem has_set {es : Entries α} {key k : Key} {v : α} (h : es.has k = true) :
    (es.set key v).has k = true := by
  rw [has_eq_any_keys] at h ⊢
  rcases keys_set es key v with he | ⟨-, he⟩
  · rwa [he]
  · rw [he, List.any_append, h, Bool.true_or]

/-- The key of an entry that is set is the only new key. -/
theorem mem_keys_set {es : Entries α} {key k : Key} {v : α} (hk : k ∈ (es.set key v).keys) :
    k ∈ es.keys ∨ k = key := by
  rcases keys_set es key v with he | ⟨-, he⟩
  · exact .inl (he ▸ hk)
  · rw [he, List.mem_append, List.mem_singleton] at hk
    exact hk

/-- A key is looked up in the first entry and then in the others. -/
theorem get?_cons (k : Key) (v : α) (es : Entries α) (key : Key) :
    Entries.get? ((k, v) :: es) key = if key.same k then some v else es.get? key := by
  rw [get?, List.find?_cons]
  cases key.same k <;> rfl

/-- A key is looked up in the first entries and then in the others. -/
theorem get?_append (es es' : Entries α) (key : Key) :
    Entries.get? (es ++ es') key = (Entries.get? es key).or (Entries.get? es' key) := by
  rw [get?, List.find?_append, get?, get?]
  cases es.find? fun e => key.same e.1 <;> rfl

/-- Setting a text key leaves every other key as it was. -/
theorem get?_set_of_ne (es : Entries α) {s : String} {k : Key} (h : k ≠ .text s) (v : α) :
    (es.set (.text s) v).get? k = es.get? k := by
  have hsame : k.same (.text s) = false := Bool.eq_false_iff.mpr (mt Key.eq_text_of_same h)
  induction es with
  | nil => rw [set, get?_cons, hsame, if_neg Bool.false_ne_true]
  | cons e rest ih =>
    obtain ⟨l, x⟩ := e
    rw [set]
    split
    · next hl =>
      obtain rfl := Key.same_text_eq_true hl
      rw [get?_cons, get?_cons, hsame, if_neg Bool.false_ne_true, if_neg Bool.false_ne_true]
    · rw [get?_cons, get?_cons, ih]

/-- An entry is found under its key if no other key is the same as that. -/
theorem get?_map_of_mem {items : List β} {key : β → Key} {value : β → α} {b : β}
    (hself : (key b).same (key b) = true)
    (hkey : ∀ c ∈ items, (key b).same (key c) = true → value c = value b) (hb : b ∈ items) :
    Entries.get? (items.map fun c => (key c, value c)) (key b) = some (value b) := by
  rw [get?, List.find?_map]
  have hsome : (items.find? ((fun e : Key × α => (key b).same e.1) ∘
      fun c => (key c, value c))).isSome := by
    rw [List.find?_isSome]
    exact ⟨b, hb, hself⟩
  obtain ⟨c, hc⟩ := Option.isSome_iff_exists.mp hsome
  rw [hc]
  have hsame : (key b).same (key c) = true := by simpa using List.find?_some hc
  exact congrArg some (hkey c (List.mem_of_find?_eq_some hc) hsame)

/-- Nothing is found under a key that is the same as no key of the entries. -/
theorem get?_map_eq_none {items : List β} {key : β → Key} {value : β → α} {k : Key}
    (hkey : ∀ c ∈ items, k.same (key c) = false) :
    Entries.get? (items.map fun c => (key c, value c)) k = none := by
  rw [get?, List.find?_map, List.find?_eq_none.mpr]
  · rfl
  · intro c hc
    simpa using hkey c hc

/-- An entry whose key is new goes to the end. -/
theorem set_of_new {es : Entries α} {key : Key} (h : ∀ k ∈ es.keys, key.same k = false) (v : α) :
    es.set key v = es ++ [(key, v)] := by
  induction es with
  | nil => rfl
  | cons e es ih =>
    obtain ⟨k, x⟩ := e
    obtain ⟨hk, hes⟩ := List.forall_mem_cons.mp h
    rw [set, hk, if_neg Bool.false_ne_true, ih hes, List.cons_append]

/-- What is found under a text is an entry with that key. -/
theorem mem_of_get?_text {es : Entries α} {s : String} {v : α} (h : es.get? (.text s) = some v) :
    (.text s, v) ∈ es := by
  obtain ⟨⟨k, x⟩, he, rfl⟩ := Option.map_eq_some_iff.mp h
  have hsame : (Key.text s).same k = true := by simpa using List.find?_some he
  obtain rfl := Key.same_text_eq_true hsame
  exact List.mem_of_find?_eq_some he

/-- All keys are texts, and none comes twice. -/
structure Fields (es : Entries α) : Prop where
  texts : ∀ k ∈ es.keys, ∃ s, k = .text s
  once : es.TextsOnce

instance (es : Entries α) : Decidable es.TextsOnce :=
  inferInstanceAs (Decidable (es.keys.filterMap Key.text?).Nodup)

instance (es : Entries α) : Decidable es.Fields :=
  have texts_iff (k : Key) : k.text?.isSome = true ↔ ∃ s, k = .text s := by
    simp only [Option.isSome_iff_exists, Key.text?_eq_some]
  decidable_of_iff ((∀ k ∈ es.keys, k.text?.isSome = true) ∧ es.TextsOnce)
    ⟨fun h => ⟨fun k hk => (texts_iff k).mp (h.1 k hk), h.2⟩,
      fun h => ⟨fun k hk => (texts_iff k).mpr (h.texts k hk), h.once⟩⟩

/-- No entries are fields. -/
theorem fields_nil : Entries.Fields ([] : Entries α) := ⟨nofun, .nil⟩

/-- Setting a text keeps fields. -/
theorem Fields.set {es : Entries α} (h : es.Fields) (s : String) (v : α) :
    (es.set (.text s) v).Fields where
  texts := by
    intro k hk
    rcases mem_keys_set hk with hk | rfl
    · exact h.texts k hk
    · exact ⟨s, rfl⟩
  once := h.once.set (.text s) v

/-- Setting fields one by one keeps fields. -/
theorem Fields.setAll {es more : Entries α} (h : es.Fields) (hmore : ∀ k ∈ more.keys, ∃ s, k = .text s) :
    (es.setAll more).Fields := by
  induction more generalizing es with
  | nil => exact h
  | cons e more ih =>
    obtain ⟨k, v⟩ := e
    obtain ⟨⟨s, rfl⟩, hrest⟩ := List.forall_mem_cons.mp hmore
    exact ih (h.set s v) hrest

/-- The first of some fields has a key that the others do not have. -/
theorem fields_cons {k : Key} {v : α} {es : Entries α} :
    Entries.Fields ((k, v) :: es) ↔ (∃ s, k = .text s ∧ .text s ∉ es.keys) ∧ es.Fields := by
  have hmem (s : String) : s ∈ es.keys.filterMap Key.text? ↔ .text s ∈ es.keys := by
    simp only [List.mem_filterMap, Key.text?_eq_some, exists_eq_right]
  have honce_cons (s : String) :
      TextsOnce ((.text s, v) :: es) ↔ .text s ∉ es.keys ∧ es.TextsOnce := by
    have htext : Key.text? (.text s) = some s := rfl
    rw [TextsOnce, keys, List.map_cons, List.filterMap_cons_some htext, List.nodup_cons, ← hmem]
    exact Iff.rfl
  constructor
  · rintro ⟨htexts, honce⟩
    obtain ⟨⟨s, rfl⟩, hrest⟩ := List.forall_mem_cons.mp htexts
    obtain ⟨hs, honce⟩ := (honce_cons s).mp honce
    exact ⟨⟨s, rfl, hs⟩, hrest, honce⟩
  · rintro ⟨⟨s, rfl, hs⟩, htexts, honce⟩
    exact ⟨List.forall_mem_cons.mpr ⟨⟨s, rfl⟩, htexts⟩, (honce_cons s).mpr ⟨hs, honce⟩⟩

/-- After fields were set, a text leads to what it leads to among them, or else to what it led to. -/
theorem get?_setAll {es more : Entries α} (hmore : more.Fields) (name : String) :
    (es.setAll more).get? (.text name) = (more.get? (.text name)).or (es.get? (.text name)) := by
  induction more generalizing es with
  | nil => rfl
  | cons e more ih =>
    obtain ⟨k, v⟩ := e
    obtain ⟨⟨s, rfl, hs⟩, hrest⟩ := fields_cons.mp hmore
    have hset : (es.setAll ((.text s, v) :: more)) = (es.set (.text s) v).setAll more := rfl
    rw [hset, ih hrest, get?_cons, Key.same_text]
    by_cases hname : name = s
    · subst hname
      have hnone : Entries.get? more (.text name) = none := by
        rw [← Option.not_isSome_iff_eq_none]
        intro hsome
        obtain ⟨u, hu⟩ := Option.isSome_iff_exists.mp hsome
        exact hs (List.mem_map_of_mem (mem_of_get?_text hu))
      rw [hnone, get?_set_text, beq_self_eq_true, if_pos rfl]
      rfl
    · rw [get?_set_of_ne es (by simpa using hname), beq_false_of_ne hname, if_neg Bool.false_ne_true]

/-- Setting keys that are there changes no key. -/
theorem keys_setAll_of_has {es more : Entries α} (h : ∀ k ∈ more.keys, es.has k = true) :
    (es.setAll more).keys = es.keys := by
  induction more generalizing es with
  | nil => rfl
  | cons e more ih =>
    obtain ⟨k, v⟩ := e
    obtain ⟨hk, hmore⟩ := List.forall_mem_cons.mp h
    have hkeys : (es.set k v).keys = es.keys := by
      rw [has_eq_any_keys] at hk
      rw [keys_set_eq, withKey, if_pos hk]
    show ((es.set k v).setAll more).keys = es.keys
    rw [ih fun k' hk' => has_set (hmore k' hk'), hkeys]

/-- The keys of fields are told apart. -/
theorem Fields.distinct {es : Entries α} (h : es.Fields) : es.Distinct := by
  induction es with
  | nil => exact .nil
  | cons e es ih =>
    obtain ⟨k, v⟩ := e
    obtain ⟨⟨s, rfl, hs⟩, htail⟩ := fields_cons.mp h
    refine List.pairwise_cons.mpr ⟨fun e he => ?_, ih htail⟩
    have hmem : e.1 ∈ Entries.keys es := List.mem_map_of_mem he
    obtain ⟨t, ht⟩ := htail.texts e.1 hmem
    rw [ht, Key.same_text, beq_eq_false_iff_ne]
    rintro rfl
    exact hs (ht ▸ hmem)

/-- No two fields have one key. -/
theorem Fields.nodup_keys {es : Entries α} (h : es.Fields) : es.keys.Nodup := by
  induction es with
  | nil => exact .nil
  | cons e es ih =>
    obtain ⟨⟨s, hk, hs⟩, hes⟩ := fields_cons.mp h
    have hnew : e.1 ∉ Entries.keys es := by rwa [hk]
    exact List.nodup_cons.mpr ⟨hnew, ih hes⟩

/-- Some of the fields are fields. -/
theorem Fields.sublist {es es' : Entries α} (h : es.Fields) (hes : List.Sublist es' es) :
    es'.Fields where
  texts k hk := h.texts k ((hes.map _).subset hk)
  once := h.once.sublist ((hes.map _).filterMap _)

/-- Fields in another order are fields. -/
theorem Fields.perm {es es' : Entries α} (h : es.Fields) (hes : List.Perm es' es) :
    es'.Fields where
  texts k hk := h.texts k ((hes.map _).subset hk)
  once := ((hes.map _).filterMap _).nodup_iff.mpr h.once

/-- Whether entries are fields depends on their keys alone. -/
theorem fields_iff_of_keys_eq {es : Entries α} {es' : Entries β} (h : es'.keys = es.keys) :
    es'.Fields ↔ es.Fields := by
  constructor
  · rintro ⟨htexts, honce⟩
    exact ⟨h ▸ htexts, by rwa [TextsOnce, ← h]⟩
  · rintro ⟨htexts, honce⟩
    exact ⟨h ▸ htexts, by rwa [TextsOnce, h]⟩

/-- Entries with distinct texts for keys are fields. -/
theorem fields_map {items : List β} {key : β → Key} {value : β → α}
    (htexts : ∀ b ∈ items, ∃ s, key b = .text s)
    (hkeys : items.Pairwise fun a b => (key a).same (key b) = false) :
    Entries.Fields (items.map fun b => (key b, value b)) where
  texts := by
    intro k hk
    rw [keys, List.map_map] at hk
    obtain ⟨b, hb, rfl⟩ := List.mem_map.mp hk
    exact htexts b hb
  once := textsOnce_of_distinct (List.pairwise_map.mpr hkeys)

/-- Fields are found under their keys. -/
theorem Fields.get?_of_mem {es : Entries α} (h : es.Fields) {k : Key} {v : α} (he : (k, v) ∈ es) :
    es.get? k = some v := by
  induction es with
  | nil => cases he
  | cons e es ih =>
    obtain ⟨k', v'⟩ := e
    obtain ⟨⟨s, rfl, hs⟩, htail⟩ := fields_cons.mp h
    cases he with
    | head => simp [get?_cons]
    | tail _ he =>
      obtain ⟨t, rfl⟩ := htail.texts k (List.mem_map_of_mem he)
      have hne : t ≠ s := by
        rintro rfl
        exact hs (List.mem_map_of_mem he)
      rw [get?_cons, Key.same_text, beq_false_of_ne hne, if_neg Bool.false_ne_true]
      exact ih htail he

/-- Fields are what is found under their keys. -/
theorem Fields.map_keys {es : Entries α} (h : es.Fields) (v : α) :
    (es.keys.map fun k => (k, (es.get? k).getD v)) = es := by
  rw [keys, List.map_map]
  calc es.map ((fun k => (k, (es.get? k).getD v)) ∘ (·.1))
      = es.map id := List.map_congr_left fun e he => by
        show (e.1, (es.get? e.1).getD v) = e
        rw [h.get?_of_mem he, Option.getD_some]
    _ = es := List.map_id es

/-- What is found among fields under any key is the field with that key. -/
theorem Fields.get?_eq_some {es : Entries α} (h : es.Fields) {k : Key} {v : α} :
    es.get? k = some v ↔ (k, v) ∈ es := by
  refine ⟨fun hv => ?_, h.get?_of_mem⟩
  obtain ⟨⟨k', x⟩, he, rfl⟩ := Option.map_eq_some_iff.mp hv
  have hmem := List.mem_of_find?_eq_some he
  obtain ⟨s, rfl⟩ := h.texts k' (List.mem_map_of_mem hmem)
  obtain rfl := Key.eq_text_of_same (by simpa using List.find?_some he)
  exact hmem

/-- The key of a field is new after the fields before it. -/
theorem Fields.new_of_append {done es : Entries α} {k : Key} {v : α}
    (h : Entries.Fields (done ++ (k, v) :: es)) : ∀ k' ∈ done.keys, k.same k' = false := by
  induction done with
  | nil => simp [keys]
  | cons e done ih =>
    obtain ⟨k', v'⟩ := e
    rw [List.cons_append] at h
    obtain ⟨⟨s, rfl, hs⟩, htail⟩ := fields_cons.mp h
    refine List.forall_mem_cons.mpr ⟨?_, ih htail⟩
    have hk : k ∈ Entries.keys (done ++ (k, v) :: es) := by simp [keys]
    obtain ⟨t, rfl⟩ := htail.texts k hk
    rw [Key.same_text, beq_eq_false_iff_ne]
    rintro rfl
    exact hs hk

end Entries

end Groundplan
