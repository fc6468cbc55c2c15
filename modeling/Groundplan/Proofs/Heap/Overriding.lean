import Groundplan.Proofs.Heap.Contents
import Groundplan.Proofs.Heap.Lookups

/-!
# Overriding a nested entry

Setting a nested entry writes one mapping, of which nothing in it shows anything, and copies of
those on the way. After it the path leads to the value, each place on the way is a mapping with the
keys that were there and the next one, and every path that diverges leads to what it led to before.
With a value that does not show the mapping either, these three laws alone decide what two overrides
make of each other.
-/

namespace Groundplan.Heap

variable {h h' : Heap} {top : CellId} {v : Value}

/-- The keys that segments are. -/
def keysOf (segments : List String) : List Key := segments.map Key.text

theorem keysOf_cons (segment : String) (rest : List String) :
    keysOf (segment :: rest) = .text segment :: keysOf rest := rfl

theorem keysOf_append (segments rest : List String) :
    keysOf (segments ++ rest) = keysOf segments ++ keysOf rest := List.map_append

private theorem key_text_injective : Function.Injective Key.text := by
  intro s t he
  simpa using he

theorem keysOf_injective {segments segments' : List String}
    (h : keysOf segments = keysOf segments') : segments = segments' :=
  (List.map_inj_right key_text_injective).mp h

theorem diverge_keysOf {segments segments' : List String} :
    Diverge (keysOf segments) (keysOf segments') ↔ Diverge segments segments' := by
  rw [Diverge, Diverge, keysOf, keysOf, List.prefix_map_iff_of_injective key_text_injective,
    List.prefix_map_iff_of_injective key_text_injective]

/-- The entries of what stands in a place, if that is a mapping or a view of one. -/
def entriesIn (h : Heap) (place : Option Value) : Entries Value :=
  (place.bind h.entriesOf?).getD []

/-- A key leads on from a place through the entries there. -/
private theorem bind_lookup?_cons (h : Heap) (place : Option Value) (key : Key) (path : List Key) :
    place.bind (h.lookup? · (key :: path)) =
      ((h.entriesIn place).get? key).bind (h.lookup? · path) := by
  cases place with
  | none => rfl
  | some v =>
    rw [Option.bind_some, lookup?, child?, entriesIn, Option.bind_some]
    cases h.entriesOf? v <;> rfl

private theorem entriesIn_congr {place : Option Value} (hv : ∀ v ∈ place, Agree h h' v) :
    h'.entriesIn place = h.entriesIn place := by
  cases place with
  | none => rfl
  | some v =>
    cases v with
    | atom a => rfl
    | cell c =>
      have hes : h'.entries? c = h.entries? c := (hv _ rfl c (.refl _)).entries_eq
      rw [entriesIn, entriesIn, Option.bind_some, Option.bind_some, entriesOf?, entriesOf?, hes]

private theorem entriesIn_of_mapping {c : CellId} {es : Entries Value}
    (hc : h.cells[c]? = some (.mapping es)) : h.entriesIn (some (.cell c)) = es := by
  rw [entriesIn, Option.bind_some, entriesOf?, entries?_of_mapping hc, Option.getD_some]

section Beside

/-- Nothing that the container holds draws on it. -/
def Clear (h : Heap) (top : CellId) : Prop := ∀ v ∈ h.parts top, ¬ h.DrawsOn v top

/-- The value is there and does not draw on the container. -/
def Beside (h : Heap) (top : CellId) (v : Value) : Prop :=
  v.Below h.cells.size ∧ ¬ h.DrawsOn v top

/-- What stands in a place is the container or beside it. -/
def Near (h : Heap) (top : CellId) (place : Option Value) : Prop :=
  ∀ v ∈ place, v = .cell top ∨ h.Beside top v

section Agreeing

variable (hh : h.Closed) (hcells : ∀ c < h.cells.size, c ≠ top → h'.cells[c]? = h.cells[c]?)
  (hv : h.Beside top v)
include hh hcells hv

/-- Where only the container and new ones are written, heaps agree on all that is beside it. -/
theorem Beside.agree : Agree h h' v :=
  agree_of_apart (P := (· = top)) hh hcells hv.1 fun _ hc => hc ▸ hv.2

/-- What is beside the container then is so still. -/
theorem Beside.not_drawsOn : ¬ h'.DrawsOn v top := fun hd =>
  hv.2 (drawsOn_of_apart (P := (· = top)) hh hcells hv.1 (fun _ hc => hc ▸ hv.2) hd)

end Agreeing

theorem near_self : h.Near top (some (.cell top)) := fun _ hv => .inl (Option.some.inj hv).symm

/-- What stands in a container beside another is beside that. -/
theorem Beside.part (hh : h.Closed) {c : CellId} (hc : h.Beside top (.cell c)) {u : Value}
    (hu : u ∈ h.parts c) : h.Beside top u :=
  ⟨hh c u hu, fun hd => hc.2 (hd.of_reaches (.part hu))⟩

variable (hh : h.Closed) (hs : h.Clear top)
include hh hs

private theorem Near.beside_of_mem {place : Option Value} (hplace : h.Near top place) :
    ∀ v ∈ (h.entriesIn place).values, h.Beside top v := by
  intro v hv
  unfold entriesIn at hv
  cases hes : place.bind h.entriesOf? with
  | none =>
    rw [hes] at hv
    cases hv
  | some es =>
    rw [hes] at hv
    obtain ⟨u, hu, hues⟩ := Option.bind_eq_some_iff.mp hes
    cases u with
    | atom a => cases hues
    | cell c =>
      have hpart : v ∈ h.parts c := parts_of_entries? hues ▸ hv
      rcases hplace _ hu with he | hc
      · cases he
        exact ⟨hh _ v hpart, hs v hpart⟩
      · exact hc.part hh hpart

private theorem Near.beside_of_get? {place : Option Value} (hplace : h.Near top place) {key : Key}
    (hv : (h.entriesIn place).get? key = some v) : h.Beside top v := by
  obtain ⟨l, he, -⟩ := Entries.exists_mem_of_get? hv
  exact hplace.beside_of_mem hh hs v (List.mem_map_of_mem he)

private theorem Near.get? {place : Option Value} (hplace : h.Near top place) (key : Key) :
    h.Near top ((h.entriesIn place).get? key) :=
  fun _ hv => .inr (hplace.beside_of_get? hh hs hv)

end Beside

/-- From a mapping of the second heap on, the entries of what stood in a place of the first are there,
with the next segment leading on to the value. -/
inductive Rewritten (h h' : Heap) (v : Value) : CellId → Option Value → List String → Prop
  | last {c : CellId} {place : Option Value} {segment : String}
      (hc : h'.cells[c]? = some (.mapping ((h.entriesIn place).set (.text segment) v))) :
      Rewritten h h' v c place [segment]
  | step {c copy : CellId} {place : Option Value} {segment : String} {rest : List String}
      (hc : h'.cells[c]? =
        some (.mapping ((h.entriesIn place).set (.text segment) (.cell copy))))
      (hnew : h.cells.size ≤ copy)
      (hrest : Rewritten h h' v copy ((h.entriesIn place).get? (.text segment)) rest) :
      Rewritten h h' v c place (segment :: rest)

/-- What is found on the way after some copying is what was there before. -/
private theorem foundAt_eq (hh : h.Closed) (hs : h.Clear top)
    (hcells : ∀ c < h.cells.size, c ≠ top → h'.cells[c]? = h.cells[c]?) {c : CellId}
    {place : Option Value} (hplace : h.Near top place)
    (hc : h'.cells[c]? = some (.mapping (h.entriesIn place)))
    (segment : String) :
    h'.foundAt c segment = h.entriesIn ((h.entriesIn place).get? (.text segment)) := by
  have hat : h'.valueAt? c (.text segment) = (h.entriesIn place).get? (.text segment) := by
    rw [valueAt?, hc]
  rw [foundAt, hat]
  exact entriesIn_congr fun v hv => (hplace.beside_of_get? hh hs hv).agree hh hcells

/-- From a copy of what stood in a place, a nested entry is set in it and in copies of what was on the
way before any copying. -/
private theorem rewritten_of_copy (hh : h.Closed) (hs : h.Clear top) {segments : List String}
    (hne : segments ≠ []) (v : Value) {c : CellId} {place : Option Value} (hplace : h.Near top place)
    (hcells : ∀ c < h.cells.size, c ≠ top → h'.cells[c]? = h.cells[c]?)
    (hsize : h.cells.size ≤ h'.cells.size) (hnew : c < h.cells.size → c = top)
    (hc : h'.cells[c]? = some (.mapping (h.entriesIn place))) :
    Rewritten h (h'.setNested c segments v) v c place segments := by
  induction segments generalizing h' c place with
  | nil => exact absurd rfl hne
  | cons segment rest ih =>
    cases rest with
    | nil => exact .last (getElem?_setEntry_self h' c _ v hc)
    | cons next rest =>
      have hlt : c < h'.cells.size := lt_size_of_getElem? hc
      have hc' : (h'.alloc (.mapping (h'.foundAt c segment))).1.cells[c]? =
          some (.mapping (h.entriesIn place)) := by rwa [getElem?_alloc_of_lt h' _ hlt]
      rw [setNested_cons_cons]
      refine Rewritten.step ?_ hsize
        (ih (c := h'.cells.size) (by simp) (hplace.get? hh hs _) ?_ ?_ ?_ ?_)
      · -- what is written in the copy leaves the link to it
        rw [getElem?_setNested_of_ne _ _ _ (Nat.ne_of_lt hlt)]
        · exact getElem?_setEntry_self _ c _ _ hc'
        · rw [size_setEntry, size_alloc]
          exact Nat.lt_succ_of_lt hlt
      · intro d hd hdtop
        have hdc : d ≠ c := fun he => hdtop (he ▸ hnew (he ▸ hd))
        rw [getElem?_setEntry_of_ne _ _ _ _ hdc,
          getElem?_alloc_of_lt h' _ (Nat.lt_of_lt_of_le hd hsize), hcells d hd hdtop]
      · rw [size_setEntry, size_alloc]
        exact Nat.le_succ_of_le hsize
      · exact fun hd => absurd hd (Nat.not_lt_of_le hsize)
      · rw [getElem?_setEntry_of_ne _ _ _ _ (Nat.ne_of_gt hlt), getElem?_alloc_size,
          foundAt_eq hh hs hcells hplace hc]

namespace Rewritten

variable {c : CellId} {place : Option Value} {segments : List String}

private theorem exists_mapping (hr : Rewritten h h' v c place segments) :
    ∃ es, h'.cells[c]? = some (.mapping es) := by
  cases hr with
  | last hc => exact ⟨_, hc⟩
  | step hc => exact ⟨_, hc⟩

private theorem leads (hr : Rewritten h h' v c place segments) :
    h'.lookup? (.cell c) (keysOf segments) = some v := by
  induction hr with
  | last hc =>
    rw [keysOf_cons, lookup?, child?_of_mapping hc, Entries.get?_set_text]
    rfl
  | step hc _ _ ih =>
    rw [keysOf_cons, lookup?, child?_of_mapping hc, Entries.get?_set_text]
    exact ih

private theorem mappings (hr : Rewritten h h' v c place segments) {before after : List String}
    {next : String} (hsegments : segments = before ++ next :: after) :
    ∃ d es, h'.lookup? (.cell c) (keysOf before) = some (.cell d) ∧
      h'.cells[d]? = some (.mapping es) ∧
      es.keys = Entries.withKey
        (h.entriesIn (place.bind (h.lookup? · (keysOf before)))).keys (.text next) := by
  have hhere {place : Option Value} : place.bind (h.lookup? · (keysOf [])) = place := by
    cases place <;> rfl
  induction hr generalizing before with
  | last hc =>
    cases before with
    | nil =>
      cases hsegments
      exact ⟨_, _, rfl, hc, by rw [Entries.keys_set_eq, hhere]⟩
    | cons segment before => simp at hsegments
  | step hc _ _ ih =>
    cases before with
    | nil =>
      cases hsegments
      exact ⟨_, _, rfl, hc, by rw [Entries.keys_set_eq, hhere]⟩
    | cons segment before =>
      obtain ⟨rfl, hrest⟩ := List.cons.inj hsegments
      obtain ⟨d, es, hlookup, hd, hkeys⟩ := ih hrest
      refine ⟨d, es, ?_, hd, ?_⟩
      · rw [keysOf_cons, lookup?, child?_of_mapping hc, Entries.get?_set_text]
        exact hlookup
      · rw [hkeys, keysOf_cons, bind_lookup?_cons]

private theorem elsewhere (hh : h.Closed) (hs : h.Clear top)
    (hcells : ∀ c < h.cells.size, c ≠ top → h'.cells[c]? = h.cells[c]?)
    (hr : Rewritten h h' v c place segments) (hplace : h.Near top place) {path : List Key}
    (hd : Diverge (keysOf segments) path) :
    h'.lookup? (.cell c) path = place.bind (h.lookup? · path) ∧
      ∀ u ∈ place.bind (h.lookup? · path), Agree h h' u := by
  -- a key that no segment is leads on beside the container, as before
  have hother {c : CellId} {place : Option Value} {segment : String} {u : Value} {key : Key}
      {path : List Key} (hplace : h.Near top place)
      (hc : h'.cells[c]? = some (.mapping ((h.entriesIn place).set (.text segment) u)))
      (hkey : key ≠ .text segment) :
      h'.lookup? (.cell c) (key :: path) = place.bind (h.lookup? · (key :: path)) ∧
        ∀ u ∈ place.bind (h.lookup? · (key :: path)), Agree h h' u := by
    rw [bind_lookup?_cons, lookup?, child?_of_mapping hc, Entries.get?_set_of_ne _ hkey]
    cases hx : (h.entriesIn place).get? key with
    | none => exact ⟨rfl, fun u hu => by cases hu⟩
    | some x =>
      have hagree := (hplace.beside_of_get? hh hs hx).agree hh hcells
      exact ⟨hagree.lookup?_eq path, fun u hu => hagree.of_reaches (reaches_of_lookup? hu)⟩
  induction hr generalizing path with
  | @last c place segment hc =>
    cases path with
    | nil => exact absurd List.nil_prefix hd.2
    | cons key path =>
      apply hother hplace hc
      rintro rfl
      exact hd.1 (List.cons_prefix_cons.mpr ⟨rfl, List.nil_prefix⟩)
  | @step c copy place segment rest hc _ _ ih =>
    cases path with
    | nil => exact absurd List.nil_prefix hd.2
    | cons key path =>
      by_cases hkey : key = .text segment
      · subst hkey
        have hrest : Diverge (keysOf rest) path := diverge_cons.mp hd
        rw [bind_lookup?_cons, lookup?, child?_of_mapping hc, Entries.get?_set_text]
        exact ih (hplace.get? hh hs _) hrest
      · exact hother hplace hc hkey

/-- If the value does not draw on the container, nothing from it or from a copy on the way does. -/
private theorem not_drawsOn (hh : h.Closed) (hs : h.Clear top)
    (hcells : ∀ c < h.cells.size, c ≠ top → h'.cells[c]? = h.cells[c]?) (htop : top < h.cells.size)
    (hr : Rewritten h h' v c place segments) (hplace : h.Near top place) (hv : h.Beside top v) :
    ∀ u ∈ h'.parts c, ¬ h'.DrawsOn u top := by
  have hparts {c : CellId} {place : Option Value} {segment : String} {x u : Value}
      (hplace : h.Near top place)
      (hc : h'.cells[c]? = some (.mapping ((h.entriesIn place).set (.text segment) x)))
      (hu : u ∈ h'.parts c) : u = x ∨ ¬ h'.DrawsOn u top := by
    rw [parts_of_entries? (entries?_of_mapping hc)] at hu
    rcases Entries.mem_values_set hu with hu | hu
    · exact .inr ((hplace.beside_of_mem hh hs u hu).not_drawsOn hh hcells)
    · exact .inl hu
  induction hr with
  | last hc =>
    intro u hu
    rcases hparts hplace hc hu with rfl | hu
    · exact hv.not_drawsOn hh hcells
    · exact hu
  | @step c copy place segment rest hc hnew hrest ih =>
    intro u hu
    rcases hparts hplace hc hu with rfl | hu
    · rintro ⟨id, hid, hb⟩
      rcases reaches_cell_iff.mp hid with he | ⟨x, hx, hid⟩
      · -- the copy is a new mapping, so the container does not stand behind it
        cases he
        obtain ⟨es, hcopy⟩ := hrest.exists_mapping
        cases hb with
        | refl => exact absurd htop (Nat.not_lt_of_le hnew)
        | view hview => cases hcopy.symm.trans hview
      · exact ih (hplace.get? hh hs _) x hx ⟨id, hid, hb⟩
    · exact hu

end Rewritten

/-- What an override makes of all paths from the value at the top: its own leads to the value; each
place before its end is an open mapping that has the keys of the mapping that stood there, if one
did, and the next segment after them if it was not among them; and all that diverges is as it
was. -/
structure Overridden (h h' : Heap) (top : Value) (segments : List String) (v : Value) : Prop where
  leads : h'.lookup? top (keysOf segments) = some v
  mappings : ∀ before next after, segments = before ++ next :: after →
    ∃ c es, h'.lookup? top (keysOf before) = some (.cell c) ∧
      h'.cells[c]? = some (.mapping es) ∧
      es.keys = Entries.withKey
        (h.entriesIn (h.lookup? top (keysOf before))).keys (.text next)
  elsewhere : ∀ path, Diverge (keysOf segments) path →
    h'.lookup? top path = h.lookup? top path ∧ ∀ u ∈ h.lookup? top path, Agree h h' u

section SetNested

variable {es : Entries Value} {segments : List String} (hh : h.Closed) (hs : h.Clear top)
  (htop : h.cells[top]? = some (.mapping es)) (hne : segments ≠ [])
include hh hs htop hne

private theorem rewritten_setNested (v : Value) :
    Rewritten h (h.setNested top segments v) v top (some (.cell top)) segments := by
  have hplace : h.entriesIn (some (.cell top)) = es := entriesIn_of_mapping htop
  exact rewritten_of_copy hh hs hne v near_self (fun _ _ _ => rfl) (Nat.le_refl _) (fun _ => rfl)
    (hplace.symm ▸ htop)

/-- Setting a nested entry of a mapping overrides, if nothing in the mapping draws on it. -/
theorem overridden_setNested (v : Value) :
    Overridden h (h.setNested top segments v) (.cell top) segments v := by
  have hr := rewritten_setNested hh hs htop hne v
  exact ⟨hr.leads, fun before next after => hr.mappings, fun path hd =>
    hr.elsewhere hh hs (fun c hc hct => getElem?_setNested_of_ne segments v hc hct) near_self hd⟩

/-- Nothing in the mapping draws on it afterwards, if the value does not. -/
theorem clear_setNested (hv : h.Beside top v) : (h.setNested top segments v).Clear top :=
  (rewritten_setNested hh hs htop hne v).not_drawsOn hh hs
    (fun _ hc hct => getElem?_setNested_of_ne segments v hc hct) (lt_size_of_getElem? htop) near_self hv

end SetNested

/-- A path goes on from the end of the segments, ends before that, or diverges. -/
private theorem place_cases (segments : List String) (path : List Key) :
    (∃ rest, path = keysOf segments ++ rest) ∨
      (∃ before next after, segments = before ++ next :: after ∧ path = keysOf before) ∨
      Diverge (keysOf segments) path := by
  by_cases hbeyond : keysOf segments <+: path
  · obtain ⟨rest, rfl⟩ := hbeyond
    exact .inl ⟨rest, rfl⟩
  by_cases hbefore : path <+: keysOf segments
  · obtain ⟨before, ⟨rest, hsegments⟩, rfl⟩ := List.prefix_map_iff.mp hbefore
    cases rest with
    | nil =>
      rw [List.append_nil] at hsegments
      exact absurd (hsegments ▸ List.prefix_rfl) hbeyond
    | cons next after => exact .inr (.inl ⟨before, next, after, hsegments.symm, rfl⟩)
  · exact .inr (.inr ⟨hbeyond, hbefore⟩)

/-- An override after which the value reads as it did. -/
structure Replaced (h h' : Heap) (top : Value) (segments : List String) (v : Value) : Prop
    extends Overridden h h' top segments v where
  steady : Agree h h' v

namespace Replaced

variable {g g₁ g₂ g₁₂ g₂₁ : Heap} {top u : Value} {p q : List String}

/-- Beyond its end the path leads to what the value does. -/
private theorem lookup?_append (h₁ : Replaced h g top p v) (rest : List Key) :
    g.lookup? top (keysOf p ++ rest) = h.lookup? v rest := by
  rw [Heap.lookup?_append, h₁.leads, Option.bind_some, h₁.steady.lookup?_eq]

/-- Overriding once more on the same path changes nothing but which copies are there. -/
theorem again (h₁ : Replaced h g top p v) (h₂ : Replaced g g₁ top p v) :
    LikeAlong Eq g g₁ top := by
  intro path
  rcases place_cases p path with ⟨rest, rfl⟩ | ⟨before, next, after, hp, rfl⟩ | hd
  · rw [h₁.lookup?_append, h₂.lookup?_append, h₁.steady.lookup?_eq]
    refine likeAt_of_agree (h := g) (fun x _ => .refl g x) fun x hx => ?_
    exact h₂.steady.of_reaches (h₁.steady.reaches (reaches_of_lookup? hx))
  · obtain ⟨c, es, hlookup, hc, hkeys⟩ := h₁.mappings before next after hp
    obtain ⟨c', es', hlookup', hc', hkeys'⟩ := h₂.mappings before next after hp
    rw [hlookup, entriesIn_of_mapping hc] at hkeys'
    rw [hlookup, hlookup']
    refine .mapping hc hc' ?_
    have hnext : .text next ∈ es.keys := hkeys ▸ Entries.mem_withKey_text.mpr (.inr rfl)
    rw [hkeys', Entries.withKey_text_of_mem hnext]
  · obtain ⟨heq, hagree⟩ := h₂.elsewhere path hd
    rw [heq]
    exact likeAt_of_agree (fun x _ => .refl g x) hagree

/-- Where the first of two overrides made a mapping and the second diverges, the keys are the same
if the second is made first. -/
private theorem likeAt_before (h₁ : Replaced h g₁ top p v) (h₁₂ : Replaced g₁ g₁₂ top q u)
    (h₂ : Replaced h g₂ top q u) (h₂₁ : Replaced g₂ g₂₁ top p v) {before after : List String}
    {next : String} (hp : p = before ++ next :: after) (hd : Diverge (keysOf q) (keysOf before)) :
    LikeAt List.Perm g₁₂ g₂₁ (g₁₂.lookup? top (keysOf before)) (g₂₁.lookup? top (keysOf before)) := by
  obtain ⟨c, es, hlookup, hc, hkeys⟩ := h₁.mappings before next after hp
  obtain ⟨c', es', hlookup', hc', hkeys'⟩ := h₂₁.mappings before next after hp
  obtain ⟨heq, hagree⟩ := h₁₂.elsewhere _ hd
  obtain ⟨heq', hagree'⟩ := h₂.elsewhere _ hd
  have hkept : g₁₂.cells[c]? = some (.mapping es) := by
    rw [(hagree _ hlookup c (.refl _)).cell_eq, hc]
  rw [heq, hlookup, hlookup']
  refine .mapping hkept hc' ?_
  rw [hkeys, hkeys', heq', entriesIn_congr hagree']

/-- Beyond the end of the first of two diverging overrides stands its value, whichever is made
first. -/
private theorem likeAt_beyond (h₁ : Replaced h g₁ top p v) (h₁₂ : Replaced g₁ g₁₂ top q u)
    (h₂₁ : Replaced g₂ g₂₁ top p v) (hv : Agree h g₂ v) {rest : List Key}
    (hd : Diverge (keysOf q) (keysOf p ++ rest)) :
    LikeAt List.Perm g₁₂ g₂₁ (g₁₂.lookup? top (keysOf p ++ rest))
      (g₂₁.lookup? top (keysOf p ++ rest)) := by
  obtain ⟨heq, hagree⟩ := h₁₂.elsewhere _ hd
  rw [h₁.lookup?_append] at heq hagree
  rw [heq, h₂₁.lookup?_append, hv.lookup?_eq]
  refine likeAt_of_agree (h := h) (fun x hx => ?_) fun x hx => ?_
  · exact (h₁.steady.of_reaches (reaches_of_lookup? hx)).trans (hagree x hx)
  · exact (hv.trans h₂₁.steady).of_reaches (reaches_of_lookup? hx)

/-- Overrides on diverging paths can be made in either order, up to the order of keys. -/
theorem commute (h₁ : Replaced h g₁ top p v) (h₁₂ : Replaced g₁ g₁₂ top q u)
    (h₂ : Replaced h g₂ top q u) (h₂₁ : Replaced g₂ g₂₁ top p v)
    (hpq : Diverge (keysOf p) (keysOf q)) (hv : Agree h g₂ v) (hu : Agree h g₁ u) :
    LikeAlong List.Perm g₁₂ g₂₁ top := by
  intro path
  rcases place_cases p path with ⟨rest, rfl⟩ | ⟨before, next, after, hp, rfl⟩ | hd
  · exact likeAt_beyond h₁ h₁₂ h₂₁ hv (hpq.of_prefix (List.prefix_append _ _)).symm
  · rcases place_cases q (keysOf before) with ⟨rest, he⟩ | ⟨before', next', after', hq, he⟩ | hd'
    · -- the second path would not diverge from the first
      have hprefix : keysOf q <+: keysOf p := by
        rw [hp, keysOf_append, he, List.append_assoc]
        exact List.prefix_append _ _
      exact absurd hprefix hpq.2
    · have hq : q = before ++ next' :: after' := by
        rw [hq, keysOf_injective he]
      obtain ⟨c₁, es₁, hlookup₁, hc₁, hkeys₁⟩ := h₁.mappings before next after hp
      obtain ⟨c₂, es₂, hlookup₂, hc₂, hkeys₂⟩ := h₂.mappings before next' after' hq
      obtain ⟨c₁₂, es₁₂, hlookup₁₂, hc₁₂, hkeys₁₂⟩ := h₁₂.mappings before next' after' hq
      obtain ⟨c₂₁, es₂₁, hlookup₂₁, hc₂₁, hkeys₂₁⟩ := h₂₁.mappings before next after hp
      rw [hlookup₁, entriesIn_of_mapping hc₁, hkeys₁] at hkeys₁₂
      rw [hlookup₂, entriesIn_of_mapping hc₂, hkeys₂] at hkeys₂₁
      rw [hlookup₁₂, hlookup₂₁]
      refine .mapping hc₁₂ hc₂₁ ?_
      rw [hkeys₁₂, hkeys₂₁]
      exact Entries.withKey_text_comm _ next next'
    · exact likeAt_before h₁ h₁₂ h₂ h₂₁ hp hd'
  · rcases place_cases q path with ⟨rest, rfl⟩ | ⟨before, next, after, hq, rfl⟩ | hd'
    · exact (likeAt_beyond h₂ h₂₁ h₁₂ hu hd).symm fun _ _ => List.Perm.symm
    · exact (likeAt_before h₂ h₂₁ h₁ h₁₂ hq hd).symm fun _ _ => List.Perm.symm
    · obtain ⟨heq₁, hagree₁⟩ := h₁.elsewhere path hd
      obtain ⟨heq₂, hagree₂⟩ := h₂.elsewhere path hd'
      obtain ⟨heq₁₂, hagree₁₂⟩ := h₁₂.elsewhere path hd'
      obtain ⟨heq₂₁, hagree₂₁⟩ := h₂₁.elsewhere path hd
      rw [heq₁] at heq₁₂ hagree₁₂
      rw [heq₂] at heq₂₁ hagree₂₁
      rw [heq₁₂, heq₂₁]
      exact likeAt_of_agree (fun x hx => (hagree₁ x hx).trans (hagree₁₂ x hx))
        fun x hx => (hagree₂ x hx).trans (hagree₂₁ x hx)

end Replaced

end Groundplan.Heap
