import Groundplan.Proofs.Datum.Entries
import Groundplan.Proofs.Datum.Limits
import Groundplan.Proofs.Json.Numbers
import Groundplan.Proofs.Json.Texts

/-!
# JSON text read back

What is written for a datum that is regular is read back as that datum: lists, open mappings with
distinct texts for keys, and scalars other than infinities and what stands for no number. Over several
lines or on one, blanks stand only where reading passes over them.
-/

namespace Groundplan

namespace Draft

/-- A draft of two parts is complete if both are. -/
theorem append_eq_ofChars {a b : Draft} {cs : List Char} :
    a ++ b = .ofChars cs ↔
      ∃ xs ys, a = .ofChars xs ∧ b = .ofChars ys ∧ cs = xs ++ ys := by
  obtain ⟨xs, fault⟩ := a
  obtain ⟨ys, fault'⟩ := b
  cases fault with
  | none =>
    constructor
    · intro h
      obtain ⟨hwritten, hfault⟩ := Draft.mk.inj h
      exact ⟨xs, ys, rfl, congrArg (Draft.mk ys) hfault, hwritten.symm⟩
    · rintro ⟨_, _, ⟨⟩, ⟨⟩, rfl⟩
      rfl
  | some fault =>
    constructor
    · intro h
      cases congrArg Draft.fault h
    · rintro ⟨_, _, ⟨⟩, -⟩

end Draft

namespace Json

/-- Data that JSON has a form for. -/
inductive Regular : Datum → Prop
  | scalar {s : Scalar} (h : ∀ x, s = .float x → x.isFinite = true) : Regular (.scalar s)
  | list {items : List Datum} (h : ∀ d ∈ items, Regular d) : Regular (.list items)
  | mapping {es : Entries Datum} (hes : es.Fields) (h : ∀ e ∈ es, Regular e.2) :
      Regular (.mapping false es)

/-- Only blanks stand before items. -/
def Layout.Blank (layout : Layout) : Prop := ∀ depth, ∀ c ∈ layout.break depth, c = '\n' ∨ c = ' '

/-- Lines indented by spaces are. -/
theorem Layout.blank_ofSpaces (n : Int) : (Layout.ofSpaces n).Blank := by
  intro depth c hc
  unfold ofSpaces at hc
  split at hc
  · cases hc
  · simp only [Layout.break, List.mem_cons, List.mem_flatten, List.mem_replicate] at hc
    rcases hc with rfl | ⟨_, ⟨-, rfl⟩, hc⟩
    · exact .inl rfl
    · exact .inr (List.eq_of_mem_replicate hc)

private theorem skipBlank_append {bs : List Char} (h : ∀ c ∈ bs, c = '\n' ∨ c = ' ')
    (cs : List Char) : skipBlank (bs ++ cs) = skipBlank cs := by
  apply List.dropWhile_append_of_pos
  intro c hc
  rcases h c hc with rfl | rfl <;> rfl

/-- What a value may start with. -/
private def isStart (c : Char) : Bool :=
  c.isDigit || ['"', '\x7b', '[', 'n', 't', 'f', 'N', 'I', '-'].contains c

section Values

variable {room : Room}

/-- What is read as a value starts like one. -/
private theorem exists_start_of_value {fuel : Nat} {cs : List Char} {found : Datum × List Char}
    (h : value fuel room cs = .ok found) : ∃ c rest, cs = c :: rest ∧ isStart c = true := by
  cases fuel with
  | zero => cases h
  | succ fuel =>
    unfold value at h
    split at h
    all_goals first
      | exact ⟨_, _, rfl, by decide⟩
      | skip
    obtain ⟨negative, c, rest, rfl, hc⟩ := exists_digit_of_number h
    cases negative with
    | true => exact ⟨'-', c :: rest, rfl, by decide⟩
    | false => exact ⟨c, rest, rfl, by simp [isStart, hc]⟩

private theorem value_of_number {cs : List Char} {found : Datum × List Char}
    (h : number cs = .ok found) (fuel : Nat) : value (fuel + 1) room cs = .ok found := by
  obtain ⟨negative, c, rest, rfl, hc⟩ := exists_digit_of_number h
  unfold value
  split
  all_goals first
    | exact h
    | skip
  all_goals next heq =>
    cases negative with
    | false =>
      simp only [signChars, Bool.false_eq_true, ↓reduceIte, List.nil_append, List.cons.injEq] at heq
      rw [heq.1] at hc
      exact absurd hc (by decide)
    | true =>
      simp only [signChars, ↓reduceIte, List.cons_append, List.nil_append, List.cons.injEq] at heq
      first
        | exact absurd heq.1 (by decide)
        | rw [heq.2.1] at hc
          exact absurd hc (by decide)

/-- No blanks stand before what is read as a value. -/
private theorem skipBlank_of_value {fuel : Nat} {cs : List Char} {found : Datum × List Char}
    (h : value fuel room cs = .ok found) : skipBlank cs = cs := by
  obtain ⟨c, rest, rfl, hc⟩ := exists_start_of_value h
  apply List.dropWhile_cons_of_neg
  simp only [Bool.or_eq_true, beq_iff_eq, not_or]
  refine ⟨⟨⟨?_, ?_⟩, ?_⟩, ?_⟩ <;>
    · rintro rfl
      exact absurd hc (by decide)

private theorem ends_cons {c : Char} (h : c = ',' ∨ c = ']' ∨ c = '\x7d' ∨ c = '\n' ∨ c = ' ')
    (cs : List Char) : Ends (c :: cs) := by
  rintro _ ⟨⟩
  rcases h with rfl | rfl | rfl | rfl | rfl <;> decide

/-- A text in its quotes with more after it. -/
theorem textChars_append (s : String) (rest : List Char) :
    textChars s ++ rest = '"' :: (s.toList.flatMap escape ++ '"' :: rest) := by
  rw [textChars, List.cons_append, List.append_assoc, List.singleton_append]

/-- A scalar is read back. -/
private theorem value_scalar {s : Scalar} (hs : Regular (.scalar s)) {cs : List Char}
    (h : scalarDraft s = .ofChars cs) (fuel : Nat) {rest : List Char} (hrest : Ends rest) :
    value (fuel + 1) room (cs ++ rest) = .ok (.scalar s, rest) := by
  unfold scalarDraft at h
  split at h
  · cases h
  · next hlong =>
    obtain rfl : scalarChars s = cs := congrArg Draft.written h
    cases s with
    | null => rfl
    | bool b => cases b <;> rfl
    | int i => exact value_of_number (number_intChars (Bool.eq_false_iff.mpr hlong) hrest) fuel
    | float x =>
      cases hs with
      | scalar hfinite => exact value_of_number (number_chars (hfinite x rfl) hrest) fuel
    | text s =>
      rw [scalarChars, textChars_append, value, textBody_flatMap_escape]
      simp only [List.reverse_nil, List.nil_append, String.ofList_toList]

private theorem skipBlank_textChars (s : String) (cs : List Char) :
    skipBlank (textChars s ++ cs) = textChars s ++ cs := by
  rw [textChars_append]
  rfl

/-- A member of an object is set in the entries before it. -/
private theorem members_textChars {s : String} {fuel : Nat} {done : Entries Datum} {xs ys : List Char}
    {d : Datum} (h : value fuel room (xs ++ ys) = .ok (d, ys)) {rest : List Char} :
    (skipBlank ys = '\x7d' :: rest →
      members (fuel + 1) room done (textChars s ++ ':' :: ' ' :: (xs ++ ys)) =
        .ok (.mapping false (done.set (.text s) d), rest)) ∧
      (skipBlank ys = ',' :: rest →
        members (fuel + 1) room done (textChars s ++ ':' :: ' ' :: (xs ++ ys)) =
          members fuel room (done.set (.text s) d) (skipBlank rest)) := by
  have hcolon : skipBlank (':' :: ' ' :: (xs ++ ys)) = ':' :: ' ' :: (xs ++ ys) := rfl
  have hspace : skipBlank (' ' :: (xs ++ ys)) = xs ++ ys := skipBlank_of_value h
  rw [textChars_append, members, textBody_flatMap_escape]
  constructor <;>
    · intro hys
      simp only [hcolon, hspace, h, hys, List.reverse_nil, List.nil_append, String.ofList_toList]

end Values

section Containers

variable {layout : Layout} (hl : layout.Blank)

include hl

private theorem exists_comma_eq (depth : Nat) :
    ∃ bs, layout.comma depth = ',' :: bs ∧ ∀ c ∈ bs, c = '\n' ∨ c = ' ' := by
  unfold Layout.comma
  split
  · exact ⟨[' '], rfl, by simp⟩
  · next unit => exact ⟨_, rfl, hl depth⟩

private theorem ends_break_append (depth : Nat) {c : Char} (hc : c = ']' ∨ c = '\x7d')
    (cs : List Char) : Ends (layout.break depth ++ c :: cs) := by
  cases hb : layout.break depth with
  | nil =>
    refine ends_cons ?_ cs
    rcases hc with rfl | rfl <;> simp
  | cons b bs =>
    refine ends_cons ?_ _
    have hmem := hl depth b (hb ▸ List.mem_cons_self)
    rcases hmem with rfl | rfl <;> simp

omit hl in
private theorem exists_of_itemsDraft_cons {depth : Nat} {d : Datum} {items : List Datum}
    {cs : List Char} (h : itemsDraft layout depth (d :: items) = .ofChars cs) :
    ∃ xs ys, draft layout (depth + 1) d = .ofChars xs ∧
      itemsDraft layout depth items = .ofChars ys ∧
      cs = layout.comma (depth + 1) ++ (xs ++ ys) := by
  rw [itemsDraft] at h
  obtain ⟨_, ys, hitem, hys, rfl⟩ := Draft.append_eq_ofChars.mp h
  obtain ⟨_, xs, hcomma, hxs, rfl⟩ := Draft.append_eq_ofChars.mp hitem
  obtain rfl := eq_of_leadDraft hcomma
  exact ⟨xs, ys, hxs, hys, List.append_assoc ..⟩

omit hl in
private theorem exists_of_entriesDraft_cons {depth : Nat} {s : String} {d : Datum}
    {es : Entries Datum} {cs : List Char}
    (h : entriesDraft layout depth ((.text s, d) :: es) = .ofChars cs) :
    ∃ xs ys, draft layout (depth + 1) d = .ofChars xs ∧
      entriesDraft layout depth es = .ofChars ys ∧
      cs = layout.comma (depth + 1) ++ (textChars s ++ ':' :: ' ' :: (xs ++ ys)) := by
  rw [entriesDraft] at h
  obtain ⟨_, ys, hentry, hys, rfl⟩ := Draft.append_eq_ofChars.mp h
  obtain ⟨as, xs, hkey, hxs, rfl⟩ := Draft.append_eq_ofChars.mp hentry
  obtain rfl : layout.comma (depth + 1) ++ textChars s ++ [':', ' '] = as :=
    congrArg Draft.written hkey
  refine ⟨xs, ys, hxs, hys, ?_⟩
  simp only [List.append_assoc, List.cons_append, List.nil_append]

private theorem ends_itemsDraft {depth : Nat} {items : List Datum} {cs : List Char}
    (h : itemsDraft layout depth items = .ofChars cs) (rest : List Char) : Ends (cs ++ rest) := by
  cases items with
  | nil =>
    obtain rfl : layout.break depth ++ [']'] = cs := congrArg Draft.written h
    rw [List.append_assoc]
    exact ends_break_append hl depth (.inl rfl) rest
  | cons d items =>
    obtain ⟨xs, ys, -, -, rfl⟩ := exists_of_itemsDraft_cons h
    obtain ⟨bs, hcomma, -⟩ := exists_comma_eq hl (depth + 1)
    rw [hcomma]
    exact ends_cons (.inl rfl) _

private theorem ends_entriesDraft {depth : Nat} {es : Entries Datum}
    (hes : ∀ k ∈ es.keys, ∃ s, k = .text s) {cs : List Char}
    (h : entriesDraft layout depth es = .ofChars cs) (rest : List Char) : Ends (cs ++ rest) := by
  cases es with
  | nil =>
    obtain rfl : layout.break depth ++ ['\x7d'] = cs := congrArg Draft.written h
    rw [List.append_assoc]
    exact ends_break_append hl depth (.inr rfl) rest
  | cons e es =>
    obtain ⟨k, d⟩ := e
    obtain ⟨s, rfl⟩ := hes k List.mem_cons_self
    obtain ⟨xs, ys, -, -, rfl⟩ := exists_of_entriesDraft_cons h
    obtain ⟨bs, hcomma, -⟩ := exists_comma_eq hl (depth + 1)
    rw [hcomma]
    exact ends_cons (.inl rfl) _

/-- The datum is read back from what is written for it, where there is room for it. -/
private def ReadsBack (layout : Layout) (d : Datum) : Prop :=
  ∀ {depth : Nat} {cs : List Char}, draft layout depth d = .ofChars cs →
    ∀ {fuel : Nat} {room : Room} {rest : List Char}, cs.length < fuel → room.Holds d.depth → Ends rest →
      value fuel room (cs ++ rest) = .ok (d, rest)

variable {room : Room}

/-- Items are read back one after the other. -/
private theorem elements_itemsDraft {depth : Nat} {items : List Datum}
    (hitems : ∀ d ∈ items, ReadsBack layout d) {d : Datum} (hd : ReadsBack layout d)
    (hroom : ∀ e ∈ d :: items, room.Holds e.depth) (done : List Datum) (fuel : Nat)
    (rest : List Char) {xs ys : List Char}
    (hxs : draft layout (depth + 1) d = .ofChars xs)
    (hys : itemsDraft layout depth items = .ofChars ys) (hfuel : xs.length + ys.length < fuel) :
    elements fuel room done (xs ++ (ys ++ rest)) = .ok (.list (done.reverse ++ d :: items), rest) := by
  obtain ⟨hdepth, hdepths⟩ := List.forall_mem_cons.mp hroom
  induction items generalizing d done fuel xs ys with
  | nil =>
    obtain rfl : layout.break depth ++ [']'] = ys := congrArg Draft.written hys
    rw [List.length_append, List.length_singleton] at hfuel
    obtain ⟨fuel, rfl⟩ := Nat.exists_eq_add_of_le' (by omega : 1 ≤ fuel)
    have hends := ends_itemsDraft hl hys rest
    rw [elements, hd hxs (by omega) hdepth hends, List.append_assoc]
    simp only [skipBlank_append (hl depth), List.reverse_cons]
    rfl
  | cons e items ih =>
    have hends := ends_itemsDraft hl hys rest
    obtain ⟨es, zs, hes, hzs, rfl⟩ := exists_of_itemsDraft_cons hys
    obtain ⟨bs, hcomma, hblank⟩ := exists_comma_eq hl (depth + 1)
    rw [hcomma] at hfuel hends ⊢
    simp only [List.length_append, List.length_cons] at hfuel
    obtain ⟨fuel, rfl⟩ := Nat.exists_eq_add_of_le' (by omega : 1 ≤ fuel)
    obtain ⟨he, hitems⟩ := List.forall_mem_cons.mp hitems
    obtain ⟨hdepth', hdepths'⟩ := List.forall_mem_cons.mp hdepths
    have hread := he hes (by omega : es.length < fuel) hdepth' (ends_itemsDraft hl hzs rest)
    have hskip := skipBlank_of_value hread
    have hrest := ih hitems he hdepths (d :: done) fuel hes hzs (by omega) hdepth' hdepths'
    rw [elements, hd hxs (by omega) hdepth hends]
    simp only [List.cons_append, List.append_assoc]
    show elements fuel room (d :: done) (skipBlank (bs ++ (es ++ (zs ++ rest)))) = _
    rw [skipBlank_append hblank, hskip, hrest, List.reverse_cons, List.append_assoc,
      List.singleton_append]

/-- Entries are read back one after the other. -/
private theorem members_entriesDraft {depth : Nat} {es : Entries Datum}
    (hes : ∀ e ∈ es, ReadsBack layout e.2) {s : String} {d : Datum} (hd : ReadsBack layout d)
    (hdepth : room.Holds d.depth) (hdepths : ∀ e ∈ es, room.Holds e.2.depth)
    (done : Entries Datum) (hfields : Entries.Fields (done ++ (.text s, d) :: es)) (fuel : Nat)
    (rest : List Char) {xs ys : List Char} (hxs : draft layout (depth + 1) d = .ofChars xs)
    (hys : entriesDraft layout depth es = .ofChars ys) (hfuel : xs.length + ys.length < fuel) :
    members fuel room done (textChars s ++ (':' :: ' ' :: (xs ++ (ys ++ rest)))) =
      .ok (.mapping false (done ++ (.text s, d) :: es), rest) := by
  induction es generalizing s d done fuel xs ys with
  | nil =>
    have hends := ends_entriesDraft hl (by simp [Entries.keys]) hys rest
    obtain rfl : layout.break depth ++ ['\x7d'] = ys := congrArg Draft.written hys
    rw [List.length_append, List.length_singleton] at hfuel
    obtain ⟨fuel, rfl⟩ := Nat.exists_eq_add_of_le' (by omega : 1 ≤ fuel)
    have hread := hd hxs (by omega : xs.length < fuel) hdepth hends
    have hclose : skipBlank (layout.break depth ++ ['\x7d'] ++ rest) = '\x7d' :: rest := by
      rw [List.append_assoc, skipBlank_append (hl depth)]
      rfl
    rw [(members_textChars hread).1 hclose, Entries.set_of_new hfields.new_of_append]
  | cons e es ih =>
    obtain ⟨k, e⟩ := e
    have hrest : Entries.Fields (done ++ [(.text s, d)] ++ (k, e) :: es) := by
      rwa [List.append_assoc, List.singleton_append]
    obtain ⟨t, rfl⟩ := hfields.texts k (by simp [Entries.keys])
    have htexts : ∀ k ∈ Entries.keys ((.text t, e) :: es), ∃ s, k = .text s := by
      intro k hk
      obtain ⟨p, hp, rfl⟩ := List.mem_map.mp hk
      exact hfields.texts _
        (List.mem_map_of_mem (List.mem_append_right _ (List.mem_cons_of_mem _ hp)))
    have hends := ends_entriesDraft hl htexts hys rest
    obtain ⟨zs, vs, hzs, hvs, rfl⟩ := exists_of_entriesDraft_cons hys
    obtain ⟨bs, hcomma, hblank⟩ := exists_comma_eq hl (depth + 1)
    rw [hcomma] at hfuel hends ⊢
    simp only [List.length_append, List.length_cons] at hfuel
    obtain ⟨fuel, rfl⟩ := Nat.exists_eq_add_of_le' (by omega : 1 ≤ fuel)
    obtain ⟨he, hes⟩ := List.forall_mem_cons.mp hes
    obtain ⟨hdepth', hdepths'⟩ := List.forall_mem_cons.mp hdepths
    have hread := hd hxs (by omega : xs.length < fuel) hdepth hends
    have hnext : skipBlank (',' :: bs ++ (textChars t ++ ':' :: ' ' :: (zs ++ vs)) ++ rest) =
        ',' :: (bs ++ (textChars t ++ ':' :: ' ' :: (zs ++ (vs ++ rest)))) := by
      simp only [List.cons_append, List.append_assoc]
      rfl
    rw [(members_textChars hread).2 hnext, Entries.set_of_new hfields.new_of_append,
      skipBlank_append hblank, skipBlank_textChars,
      ih hes he hdepth' hdepths' _ hrest fuel hzs hvs (by omega),
      List.append_assoc, List.singleton_append]

private theorem readsBack_list {items : List Datum} (h : ∀ d ∈ items, ReadsBack layout d) :
    ReadsBack layout (.list items) := by
  intro depth cs hcs fuel room rest hfuel hroom hrest
  obtain ⟨inner, henter, hinner⟩ := Room.exists_enter .array hroom
  have hdepths := Datum.holds_depthOfItems_iff.mp hinner
  cases items with
  | nil =>
    obtain rfl : ['[', ']'] = cs := congrArg Draft.written hcs
    obtain ⟨fuel, rfl⟩ := Nat.exists_eq_add_of_le' (Nat.zero_lt_of_lt hfuel)
    simp only [List.cons_append, value, henter]
    rfl
  | cons d items =>
    rw [draft] at hcs
    obtain ⟨_, ys, hitem, hys, rfl⟩ := Draft.append_eq_ofChars.mp hcs
    obtain ⟨_, xs, hopen, hxs, rfl⟩ := Draft.append_eq_ofChars.mp hitem
    obtain rfl := eq_of_leadDraft hopen
    simp only [List.length_append, List.length_cons] at hfuel
    obtain ⟨fuel, rfl⟩ := Nat.exists_eq_add_of_le' (by omega : 1 ≤ fuel)
    obtain ⟨hd, hitems⟩ := List.forall_mem_cons.mp h
    have hfirst := hd hxs (by omega : xs.length < fuel) (hdepths d List.mem_cons_self)
      (ends_itemsDraft hl hys rest)
    have hall := elements_itemsDraft hl hitems hd hdepths [] fuel rest hxs hys (by omega)
    have hskip : skipBlank (layout.break (depth + 1) ++ (xs ++ (ys ++ rest))) =
        xs ++ (ys ++ rest) := by
      rw [skipBlank_append (hl _), skipBlank_of_value hfirst]
    obtain ⟨c, more, hcs, hc⟩ := exists_start_of_value hfirst
    simp only [List.cons_append, List.append_assoc, value, henter, hskip]
    rw [hcs] at hall ⊢
    split
    · next heq =>
      cases heq
      exact absurd hc (by decide)
    · exact hall

private theorem readsBack_mapping {es : Entries Datum} (hes : es.Fields)
    (h : ∀ e ∈ es, ReadsBack layout e.2) : ReadsBack layout (.mapping false es) := by
  intro depth cs hcs fuel room rest hfuel hroom hrest
  obtain ⟨inner, henter, hinner⟩ := Room.exists_enter .object hroom
  cases es with
  | nil =>
    obtain rfl : ['\x7b', '\x7d'] = cs := congrArg Draft.written hcs
    obtain ⟨fuel, rfl⟩ := Nat.exists_eq_add_of_le' (Nat.zero_lt_of_lt hfuel)
    simp only [List.cons_append, value, henter]
    rfl
  | cons e es =>
    obtain ⟨k, d⟩ := e
    obtain ⟨s, rfl⟩ := hes.texts k List.mem_cons_self
    rw [draft] at hcs
    obtain ⟨_, ys, hentry, hys, rfl⟩ := Draft.append_eq_ofChars.mp hcs
    obtain ⟨as, xs, hopen, hxs, rfl⟩ := Draft.append_eq_ofChars.mp hentry
    obtain rfl : '\x7b' :: layout.break (depth + 1) ++ textChars s ++ [':', ' '] = as :=
      congrArg Draft.written hopen
    simp only [List.length_append, List.length_cons] at hfuel
    obtain ⟨fuel, rfl⟩ := Nat.exists_eq_add_of_le' (by omega : 1 ≤ fuel)
    obtain ⟨hd, hentries⟩ := List.forall_mem_cons.mp h
    obtain ⟨hdepth, hdepths⟩ := List.forall_mem_cons.mp (Datum.holds_depthOfEntries_iff.mp hinner)
    have hall := members_entriesDraft hl hentries hd hdepth hdepths [] hes fuel rest hxs hys (by omega)
    have hskip : skipBlank (layout.break (depth + 1) ++
        (textChars s ++ ':' :: ' ' :: (xs ++ (ys ++ rest)))) =
          textChars s ++ ':' :: ' ' :: (xs ++ (ys ++ rest)) := by
      rw [skipBlank_append (hl _), skipBlank_textChars]
    simp only [List.cons_append, List.append_assoc, List.nil_append, value, henter, hskip]
    rw [textChars_append] at hall ⊢
    exact hall

/-- Regular data is read back from what is written for it. -/
private theorem Regular.readsBack {d : Datum} (h : Regular d) : ReadsBack layout d := by
  induction h with
  | scalar hs =>
    intro depth cs hcs fuel room rest hfuel _ hrest
    obtain ⟨fuel, rfl⟩ := Nat.exists_eq_add_of_le' (Nat.zero_lt_of_lt hfuel)
    exact value_scalar (.scalar hs) hcs fuel hrest
  | list _ ih => exact readsBack_list hl ih
  | mapping hes _ ih => exact readsBack_mapping hl hes ih

end Containers

/-- Regular data is read back from its JSON text with blanks after it, where there is room for it. -/
theorem readWithin_print_append {d : Datum} (hd : Regular d) {room : Room} (hroom : room.Holds d.depth)
    {n : Int} {text : String} (h : print (.ofSpaces n) d = .ok text) {blanks : String}
    (hblanks : ∀ c ∈ blanks.toList, c = '\n' ∨ c = ' ') : readWithin room (text ++ blanks) = .ok d := by
  obtain ⟨cs, hcs, rfl⟩ : ∃ cs, draft (.ofSpaces n) 0 d = .ofChars cs ∧ String.ofList cs = text := by
    unfold print Draft.result at h
    split at h
    · cases h
    · next hfault => exact ⟨_, by rw [Draft.ofChars, ← hfault], by cases h; rfl⟩
  have hends : Ends blanks.toList := by
    cases hb : blanks.toList with
    | nil => simp [Ends]
    | cons b bs =>
      refine ends_cons ?_ bs
      rcases hblanks b (by simp [hb]) with rfl | rfl <;> simp
  have hvalue : value (2 * (cs ++ blanks.toList).length + 1) room (cs ++ blanks.toList) =
      .ok (d, blanks.toList) := by
    refine hd.readsBack (Layout.blank_ofSpaces n) hcs ?_ hroom hends
    rw [List.length_append]
    omega
  have hskip : skipBlank blanks.toList = [] := by
    have hall := skipBlank_append hblanks []
    rwa [List.append_nil] at hall
  have hwhole : whole room (cs ++ blanks.toList) = .ok d := by
    rw [whole, skipBlank_of_value hvalue, hvalue]
    simp only [hskip]
  obtain ⟨c, more, hstart, hc⟩ := exists_start_of_value hvalue
  rw [readWithin, String.toList_append, String.toList_ofList]
  split
  · next heq =>
    rw [hstart] at heq
    cases heq
    exact absurd hc (by decide)
  · rw [readChars, hwhole]

/-- Regular data is read back from its JSON text, where there is room for it. -/
theorem readWithin_print {d : Datum} (hd : Regular d) {room : Room} (hroom : room.Holds d.depth)
    {n : Int} {text : String} (h : print (.ofSpaces n) d = .ok text) : readWithin room text = .ok d := by
  have hread := readWithin_print_append hd hroom h (by simp : ∀ c ∈ "".toList, c = '\n' ∨ c = ' ')
  rwa [String.append_empty] at hread

/-- Regular data is read back from its JSON text with blanks after it. -/
theorem read_print_append {d : Datum} (hd : Regular d) {n : Int} {text : String}
    (h : print (.ofSpaces n) d = .ok text) {blanks : String}
    (hblanks : ∀ c ∈ blanks.toList, c = '\n' ∨ c = ' ') : read (text ++ blanks) = .ok d :=
  readWithin_print_append hd (Room.holds_none _) h hblanks

end Json

end Groundplan
