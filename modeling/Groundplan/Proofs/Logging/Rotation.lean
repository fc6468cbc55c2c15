import Groundplan.Logging.Sink
import Groundplan.Proofs.Files.Moving

/-!
# Files that are moved aside

What the lines that are written to a file leave in it and in its old files: all that they held
before, the oldest first, and after it the lines, each once and in order. Only from the oldest end
is anything dropped, a whole file at a time and only before a line that would bring the file to its
limit. Nothing else is touched.
-/

namespace Groundplan.Logging

namespace RotatingFile

variable {f : RotatingFile} {env : Environment} {t t' : FileTree}

/-! ### The places of a file and of its old files -/

/-- How many old files are kept: none without a limit to the file. -/
def ages (f : RotatingFile) : Nat := if 0 < f.limit then f.backups.toNat else 0

/-- The place of the file, or of one of its old files by their age. -/
def placeOf (f : RotatingFile) (age : Nat) : List String := Path.components (f.pathOf age)

/-- What stands after the name of an old file. -/
private def mark (age : Nat) : String := if age = 0 then "" else "." ++ toString age

private theorem toList_toString (n : Nat) : (toString n).toList = Nat.toDigits 10 n :=
  String.toList_ofList

private theorem slash_not_mem_mark (age : Nat) : '/' ∉ (mark age).toList := by
  unfold mark
  split
  · exact List.not_mem_nil
  · rw [String.toList_append, toList_toString, List.mem_append, not_or]
    refine ⟨by decide, fun h => ?_⟩
    have hdigit := Nat.isDigit_of_mem_toDigits (by decide) (by decide) h
    exact absurd hdigit (by decide)

private theorem mark_inj {i j : Nat} (h : mark i = mark j) : i = j := by
  unfold mark at h
  split at h <;> split at h
  · omega
  · simp at h
  · simp at h
  · have hdigits : Nat.toDigits 10 i = Nat.toDigits 10 j := by
      rw [← toList_toString, ← toList_toString, (String.append_right_inj _).mp h]
    rw [← Nat.ofDigitChars_ten_toDigits (n := i), hdigits, Nat.ofDigitChars_ten_toDigits]

@[simp] theorem pathOf_zero (f : RotatingFile) : f.pathOf 0 = f.path := if_pos rfl

private theorem pathOf_eq (f : RotatingFile) (age : Nat) : f.pathOf age = f.path ++ mark age := by
  unfold pathOf mark
  split
  · exact String.append_empty.symm
  · exact String.append_assoc ..

/-- A name with a mark after it is a name. -/
private theorem isName_append_mark {name : String} (h : Path.IsName name) (age : Nat) :
    Path.IsName (name ++ mark age) := by
  unfold mark
  split
  · rwa [String.append_empty]
  · next hage =>
    have hlength : 3 ≤ (name ++ ("." ++ toString age)).length := by
      have hname : name.length ≠ 0 := fun h0 => h.ne_empty (by simpa using h0)
      have hdigits : (toString age).length ≠ 0 := by
        rw [← String.length_toList, toList_toString]
        exact fun h0 => Nat.toDigits_ne_nil (List.length_eq_zero_iff.mp h0)
      simp only [String.length_append]
      have hdot : ".".length = 1 := rfl
      omega
    have hne {short : String} (hshort : short.length < 3) : name ++ ("." ++ toString age) ≠ short := by
      rintro rfl
      exact Nat.not_lt.mpr hlength hshort
    refine ⟨hne (by decide), hne (by decide), hne (by decide), ?_⟩
    have hmark := slash_not_mem_mark age
    rw [mark, if_neg hage] at hmark
    rw [String.toList_append, List.mem_append, not_or]
    exact ⟨h.slash_not_mem, hmark⟩

/-- The path of an old file spells the names of the file, the last with its mark. -/
private theorem spells_pathOf {before : List String} {last : String}
    (hs : Path.Spells f.path (before ++ [last])) (age : Nat) :
    Path.Spells (f.pathOf age) (before ++ [last ++ mark age]) := by
  obtain ⟨k, hsplit⟩ := hs.split_eq
  have hlast : Path.IsName last := hs.isName last (by simp)
  rw [pathOf_eq]
  refine ⟨?_, by simp, ?_, k, ?_⟩
  · have habsolute := hs.isAbsolute
    unfold Path.isAbsolute at habsolute ⊢
    rw [String.toList_append]
    cases hpath : f.path.toList with
    | nil =>
      rw [hpath] at habsolute
      cases habsolute
    | cons c cs =>
      rw [hpath] at habsolute
      exact habsolute
  · rw [List.forall_mem_append, List.forall_mem_singleton]
    exact ⟨fun name hname => hs.isName name (List.mem_append_left _ hname), isName_append_mark hlast age⟩
  · rw [← List.append_assoc] at hsplit ⊢
    exact Text.split_append_of_not_mem (slash_not_mem_mark age) hsplit

private theorem placeOf_eq {before : List String} {last : String}
    (hs : Path.Spells f.path (before ++ [last])) (age : Nat) :
    f.placeOf age = before ++ [last ++ mark age] :=
  (spells_pathOf hs age).components_eq

/-- The file and its old files can be opened: their paths lead somewhere, and no directory is
there. -/
structure Openable (f : RotatingFile) (env : Environment) (t : FileTree) : Prop where
  spells : ∃ names, Path.Spells f.path names
  leads : ∀ age ≤ f.ages, ∃ r, t.follow env (f.pathOf age) = .ok r
  free : ∀ age ≤ f.ages, t.find? (f.placeOf age) ≠ some .directory

/-- Nothing differs between the trees but the file and its old files. -/
def SameBeside (f : RotatingFile) (t t' : FileTree) : Prop :=
  ∀ place, (∀ age ≤ f.ages, ¬ f.placeOf age <+: place) → t'.find? place = t.find? place

theorem SameBeside.refl (f : RotatingFile) (t : FileTree) : f.SameBeside t t := fun _ _ => rfl

theorem SameBeside.trans {t'' : FileTree} (h : f.SameBeside t t') (h' : f.SameBeside t' t'') :
    f.SameBeside t t'' := fun place hplace => (h' place hplace).trans (h place hplace)

namespace Openable

variable (h : f.Openable env t)
include h

private theorem exists_spells : ∃ before last, Path.Spells f.path (before ++ [last]) := by
  obtain ⟨names, hs⟩ := h.spells
  refine ⟨names.dropLast, names.getLast hs.ne_nil, ?_⟩
  rwa [List.dropLast_concat_getLast]

theorem placeOf_ne_nil (age : Nat) : f.placeOf age ≠ [] := by
  obtain ⟨before, last, hs⟩ := h.exists_spells
  rw [placeOf_eq hs]
  simp

/-- Files of different age stand beside each other. -/
theorem eq_of_starts {i j : Nat} (hstarts : f.placeOf i <+: f.placeOf j) : i = j := by
  obtain ⟨before, last, hs⟩ := h.exists_spells
  rw [placeOf_eq hs, placeOf_eq hs] at hstarts
  have heq := hstarts.eq_of_length (by simp)
  simp only [List.append_cancel_left_eq, List.cons.injEq, and_true] at heq
  exact mark_inj ((String.append_right_inj _).mp heq)

theorem placeOf_inj {i j : Nat} (heq : f.placeOf i = f.placeOf j) : i = j :=
  h.eq_of_starts (heq ▸ List.prefix_refl _)

theorem length_placeOf (i j : Nat) : (f.placeOf i).length = (f.placeOf j).length := by
  obtain ⟨before, last, hs⟩ := h.exists_spells
  rw [placeOf_eq hs, placeOf_eq hs, List.length_append, List.length_append]
  rfl

theorem follow_eq {age : Nat} (hage : age ≤ f.ages) :
    t.follow env (f.pathOf age) = .ok (f.placeOf age, false) := by
  obtain ⟨before, last, hs⟩ := h.exists_spells
  obtain ⟨r, hr⟩ := h.leads age hage
  rw [hr, FileTree.follow_of_spells (spells_pathOf hs age) hr, placeOf_eq hs]

theorem writable_eq {age : Nat} (hage : age ≤ f.ages) :
    t.writable env (f.pathOf age) = .ok (f.placeOf age) :=
  FileTree.writable_of_follow (h.follow_eq hage) (h.free age hage)

theorem pathExists_eq {age : Nat} (hage : age ≤ f.ages) :
    t.pathExists env (f.pathOf age) = (t.find? (f.placeOf age)).isSome := by
  rw [FileTree.pathExists, FileTree.lookup_of_follow (h.follow_eq hage)]

/-- The files can be opened as long as no directory comes to stand in their places. -/
theorem of_sameBeside (hsame : f.SameBeside t t')
    (hfree : ∀ age ≤ f.ages, t'.find? (f.placeOf age) ≠ some .directory) : f.Openable env t' := by
  obtain ⟨before, last, hs⟩ := h.exists_spells
  refine ⟨h.spells, fun age hage => ?_, hfree⟩
  obtain ⟨r, hr⟩ := h.leads age hage
  refine ⟨r, ?_⟩
  rw [FileTree.follow_congr (spells_pathOf hs age)
    (fun place hplace => hsame place fun i _ hi => ?_), hr]
  -- what stands before the last name is shorter than any of the places
  have hlong := (hi.trans hplace).length_le
  rw [placeOf_eq hs, List.length_append, List.length_singleton] at hlong
  omega

/-- What changes one of the places alone leaves the rest as it was, and the files open unless a
directory is put there. -/
theorem of_change {age : Nat} (hage : age ≤ f.ages)
    (hothers : ∀ place, place ≠ f.placeOf age → t'.find? place = t.find? place)
    (hfree : t'.find? (f.placeOf age) ≠ some .directory) :
    f.SameBeside t t' ∧ f.Openable env t' := by
  have hsame : f.SameBeside t t' := fun place hplace =>
    hothers place fun heq => hplace age hage (heq ▸ List.prefix_refl _)
  refine ⟨hsame, h.of_sameBeside hsame fun other hother => ?_⟩
  by_cases hsource : other = age
  · rwa [hsource]
  · rw [hothers _ fun heq => hsource (h.placeOf_inj heq)]
    exact h.free other hother

end Openable

/-! ### Moving files aside -/

/-- Bytes by their age, one after the other, the oldest first. -/
def stacked (bytes : Nat → List UInt8) : Nat → List UInt8
  | 0 => bytes 0
  | age + 1 => bytes (age + 1) ++ stacked bytes age

/-- All that the file and its old files hold, the oldest first. -/
def kept (f : RotatingFile) (t : FileTree) : List UInt8 :=
  stacked (fun age => t.bytesAt (f.placeOf age)) f.ages

section stacked

variable {bytes bytes' : Nat → List UInt8} {n i : Nat}

private theorem stacked_congr (h : ∀ age ≤ n, bytes' age = bytes age) :
    stacked bytes' n = stacked bytes n := by
  induction n with
  | zero => exact h 0 (Nat.le_refl 0)
  | succ n ih =>
    rw [stacked, stacked, h _ (Nat.le_refl _), ih fun age hage => h age (by omega)]

/-- What is no longer there at the oldest end was the first of all. -/
private theorem stacked_eq_append (hempty : bytes' n = []) (h : ∀ age < n, bytes' age = bytes age) :
    stacked bytes n = bytes n ++ stacked bytes' n := by
  cases n with
  | zero => rw [stacked, stacked, hempty, List.append_nil]
  | succ n =>
    rw [stacked, stacked, hempty, List.nil_append, stacked_congr fun age hage => h age (by omega)]

/-- What moves to an age that was free moves past nothing. -/
private theorem stacked_shift (hi : i < n) (hfree : bytes (i + 1) = []) (hsource : bytes' i = [])
    (htarget : bytes' (i + 1) = bytes i)
    (hothers : ∀ age ≤ n, age ≠ i → age ≠ i + 1 → bytes' age = bytes age) :
    stacked bytes' n = stacked bytes n := by
  induction n with
  | zero => omega
  | succ n ih =>
    rw [stacked, stacked]
    by_cases hlast : i = n
    · subst hlast
      rw [htarget, hfree, List.nil_append,
        stacked_eq_append hsource fun age hage => hothers age (by omega) (by omega) (by omega)]
    · rw [hothers (n + 1) (Nat.le_refl _) (by omega) (by omega),
        ih (by omega) fun age hage => hothers age (by omega)]

/-- What is added to the newest is the last of all. -/
private theorem stacked_append {line : List UInt8} (hnewest : bytes' 0 = bytes 0 ++ line)
    (hothers : ∀ age ≤ n, age ≠ 0 → bytes' age = bytes age) :
    stacked bytes' n = stacked bytes n ++ line := by
  induction n with
  | zero => exact hnewest
  | succ n ih =>
    rw [stacked, stacked, hothers _ (Nat.le_refl _) (Nat.succ_ne_zero n),
      ih fun age hage => hothers age (by omega), List.append_assoc]

end stacked

/-- An old file was moved to the place of the next older one, which is gone unless nothing was
moved. -/
private structure Aged (f : RotatingFile) (i : Nat) (t t' : FileTree) : Prop where
  source : t'.find? (f.placeOf i) = none
  target : t'.find? (f.placeOf (i + 1)) =
    (t.find? (f.placeOf i)).or (t.find? (f.placeOf (i + 1)))
  others : ∀ place, ¬ f.placeOf i <+: place → ¬ f.placeOf (i + 1) <+: place →
    t'.find? place = t.find? place

namespace Aged

variable {i : Nat} (h : f.Aged i t t')
include h

private theorem sameBeside (hi : i < f.ages) : f.SameBeside t t' :=
  fun place hplace => h.others place (hplace i (by omega)) (hplace (i + 1) (by omega))

private theorem find?_eq (ho : f.Openable env t) {age : Nat} (hi : age ≠ i) (hnext : age ≠ i + 1) :
    t'.find? (f.placeOf age) = t.find? (f.placeOf age) :=
  h.others _ (fun hp => hi (ho.eq_of_starts hp).symm) fun hp => hnext (ho.eq_of_starts hp).symm

private theorem openable (ho : f.Openable env t) (hi : i < f.ages) : f.Openable env t' := by
  refine ho.of_sameBeside (h.sameBeside hi) fun age hage => ?_
  by_cases hsource : age = i
  · rw [hsource, h.source]
    exact nofun
  · by_cases htarget : age = i + 1
    · rw [htarget, h.target]
      cases hfind : t.find? (f.placeOf i) with
      | none => exact ho.free _ (by omega)
      | some e =>
        have hfree := ho.free i (by omega)
        rw [hfind] at hfree
        exact hfree
    · rw [h.find?_eq ho hsource htarget]
      exact ho.free age hage

end Aged

/-- The place of the next older file is cleared before a file is moved there. -/
private theorem age_eq (f : RotatingFile) (env : Environment) (t : FileTree) (i : Nat) :
    f.age env t i =
      if t.pathExists env (f.pathOf i) then
        (if t.pathExists env (f.pathOf (i + 1)) then t.removeFile env (f.pathOf (i + 1)) else .ok t) >>=
          fun t => t.move env (f.pathOf i) (f.pathOf (i + 1))
      else .ok t := by
  unfold age
  split
  · split <;> rfl
  · rfl

/-- One of the places can be cleared, which leaves all others as they were. -/
private theorem exists_cleared (h : f.Openable env t) {age : Nat} (hage : age ≤ f.ages) :
    ∃ cleared,
      (if t.pathExists env (f.pathOf age) then t.removeFile env (f.pathOf age) else .ok t) =
        .ok cleared ∧
      cleared.find? (f.placeOf age) = none ∧
      ∀ place, place ≠ f.placeOf age → cleared.find? place = t.find? place := by
  rw [h.pathExists_eq hage]
  cases hfind : t.find? (f.placeOf age) with
  | none => exact ⟨t, rfl, hfind, fun _ _ => rfl⟩
  | some e =>
    refine ⟨t.erase (f.placeOf age), ?_, t.find?_erase (h.placeOf_ne_nil _),
      fun _ hplace => t.find?_erase_of_ne hplace⟩
    rw [Option.isSome_some, if_pos rfl, FileTree.removeFile, h.writable_eq hage]
    rfl

/-- A file that can be opened can be moved to the place of the next older one. -/
private theorem exists_aged (h : f.Openable env t) {i : Nat} (hi : i < f.ages) :
    ∃ t', f.age env t i = .ok t' ∧ f.Aged i t t' := by
  have hne : f.placeOf i ≠ f.placeOf (i + 1) := fun heq => by
    have hage := h.placeOf_inj heq
    omega
  rw [age_eq, h.pathExists_eq (Nat.le_of_lt hi)]
  cases hfind : t.find? (f.placeOf i) with
  | none => exact ⟨t, rfl, hfind, by rw [hfind, Option.none_or], fun _ _ _ => rfl⟩
  | some e =>
    obtain ⟨cleared, hcleared, hfree, hothers⟩ := exists_cleared h hi
    obtain ⟨-, hopen⟩ := h.of_change hi hothers (by simp [hfree])
    refine ⟨cleared.relocate (f.placeOf i) (f.placeOf (i + 1)), ?_, ?_, ?_, ?_⟩
    · rw [Option.isSome_some, if_pos rfl]
      refine bind_eq_ok.mpr ⟨cleared, hcleared, ?_⟩
      rw [FileTree.move, hopen.follow_eq (Nat.le_of_lt hi), hopen.follow_eq hi]
      rfl
    · exact cleared.find?_relocate_source (h.placeOf_ne_nil i) (h.length_placeOf _ _) hne
    · rw [cleared.find?_relocate_target (h.placeOf_ne_nil i) (h.placeOf_ne_nil _) hfree, hothers _ hne,
        hfind, Option.some_or]
    · intro place hsource htarget
      rw [cleared.find?_relocate_of_not_starts hsource htarget]
      exact hothers place fun heq => htarget (heq ▸ List.prefix_refl _)

/-- Moving a file aside keeps all that is held, but for what the oldest place of all held. -/
private theorem Aged.kept_eq {i : Nat} (h : f.Aged i t t') (ho : f.Openable env t) (hi : i < f.ages)
    (hfree : i + 1 = f.ages ∨ t.find? (f.placeOf (i + 1)) = none) :
    ∃ dropped, f.kept t = dropped ++ f.kept t' ∧
      (t.find? (f.placeOf (i + 1)) = none → dropped = []) ∧
      (dropped = [] ∨ dropped = t.bytesAt (f.placeOf f.ages)) := by
  have hothers : ∀ age ≤ f.ages, age ≠ i → age ≠ i + 1 →
      t'.bytesAt (f.placeOf age) = t.bytesAt (f.placeOf age) :=
    fun age _ hsource htarget => FileTree.bytesAt_congr (h.find?_eq ho hsource htarget)
  have hsource : t'.bytesAt (f.placeOf i) = [] := FileTree.bytesAt_of_none h.source
  have htarget := h.target
  cases hfind : t.find? (f.placeOf i) with
  | none =>
    rw [hfind, Option.none_or] at htarget
    refine ⟨[], (stacked_congr fun age hage => ?_).symm, fun _ => rfl, .inl rfl⟩
    by_cases hi' : age = i
    · rw [hi', hsource, FileTree.bytesAt_of_none hfind]
    · by_cases hnext : age = i + 1
      · rw [hnext, FileTree.bytesAt_congr htarget]
      · exact hothers age hage hi' hnext
  | some e =>
    have hmoved : t'.bytesAt (f.placeOf (i + 1)) = t.bytesAt (f.placeOf i) := by
      rw [hfind, Option.some_or, ← hfind] at htarget
      rw [FileTree.bytesAt, htarget, FileTree.bytesAt]
    rcases hfree with hlast | hnone
    · -- the oldest place of all: what it held goes, and then the move passes nothing
      let without (age : Nat) := if age = f.ages then [] else t.bytesAt (f.placeOf age)
      have hdropped : f.kept t = t.bytesAt (f.placeOf f.ages) ++ stacked without f.ages :=
        stacked_eq_append (if_pos rfl) fun age hage => if_neg (by omega)
      have hshift : f.kept t' = stacked without f.ages := by
        refine stacked_shift hi (if_pos hlast) hsource ?_ fun age hage hi' hnext => ?_
        · rw [hmoved]
          exact (if_neg (by omega)).symm
        · rw [hothers age hage hi' hnext]
          exact (if_neg (by omega)).symm
      refine ⟨t.bytesAt (f.placeOf f.ages), by rw [hdropped, hshift], fun hnone => ?_, .inr rfl⟩
      rw [← hlast, FileTree.bytesAt_of_none hnone]
    · exact ⟨[], (stacked_shift hi (FileTree.bytesAt_of_none hnone) hsource hmoved hothers).symm,
        fun _ => rfl, .inl rfl⟩

/-- Files are moved aside from the oldest place on, or from one that is free: then the newest place is
free, and nothing is gone but what the oldest place held. -/
private theorem exists_ageAll (h : f.Openable env t) {age : Nat} (hage : age ≤ f.ages)
    (hfree : age = f.ages ∨ t.find? (f.placeOf age) = none) :
    ∃ t' dropped, f.ageAll env age t = (t', true) ∧ f.Openable env t' ∧ f.SameBeside t t' ∧
      (0 < age ∨ t.find? (f.placeOf 0) = none → t'.find? (f.placeOf 0) = none) ∧
      f.kept t = dropped ++ f.kept t' ∧ (t.find? (f.placeOf age) = none → dropped = []) ∧
      (dropped = [] ∨ dropped = t.bytesAt (f.placeOf f.ages)) := by
  induction age generalizing t with
  | zero =>
    refine ⟨t, [], rfl, h, .refl f t, fun hnewest => ?_, rfl, fun _ => rfl, .inl rfl⟩
    rcases hnewest with hzero | hnone
    · omega
    · exact hnone
  | succ i ih =>
    obtain ⟨moved, hmove, haged⟩ := exists_aged h hage
    obtain ⟨dropped, hkept, hnone, holdest⟩ := haged.kept_eq h hage hfree
    obtain ⟨t', rest, hall, hopen, hsame, hnewest, hkept', hrest, -⟩ :=
      ih (haged.openable h hage) (by omega) (.inr haged.source)
    rw [hrest haged.source, List.nil_append] at hkept'
    refine ⟨t', dropped, ?_, hopen, (haged.sameBeside hage).trans hsame, fun _ => hnewest ?_, ?_, hnone,
      holdest⟩
    · rw [ageAll, hmove]
      exact hall
    · cases i with
      | zero => exact .inr haged.source
      | succ i => exact .inl (Nat.succ_pos i)
    · rw [hkept, hkept']

/-! ### Writing lines -/

/-- The line would bring the file to its limit. -/
def Full (f : RotatingFile) (t : FileTree) (line : String) : Prop :=
  0 < f.limit ∧ f.limit ≤ (t.bytesAt (f.placeOf 0)).length + line.length

/-- What a line that is written leaves: it stands at the end of the file, after all that was there
or, if it would have brought the file to its limit and old files are kept, by itself. All that was
held is still held, but in that case what the oldest of the old files held; and nothing else
differs. -/
structure Takes (f : RotatingFile) (t : FileTree) (line : String) (t' : FileTree) : Prop where
  newest : ∃ before, t'.find? (f.placeOf 0) = some (.file (before ++ Text.utf8 line)) ∧
    (f.Full t line ∧ 0 < f.ages → before = []) ∧
    (¬ (f.Full t line ∧ 0 < f.ages) → before = t.bytesAt (f.placeOf 0))
  kept : ∃ dropped, f.kept t ++ Text.utf8 line = dropped ++ f.kept t' ∧
    (dropped = [] ∨ (f.Full t line ∧ 0 < f.ages) ∧ dropped = t.bytesAt (f.placeOf f.ages))
  beside : f.SameBeside t t'

theorem isFull_iff (h : f.Openable env t) (line : String) :
    f.isFull env t line = true ↔ f.Full t line := by
  have hfollow : t.follow env (f.pathOf 0) = .ok (f.placeOf 0, false) := h.follow_eq (Nat.zero_le _)
  rw [pathOf_zero] at hfollow
  rw [isFull, FileTree.fileSize_of_follow hfollow, Bool.and_eq_true, decide_eq_true_iff,
    decide_eq_true_iff, Full]

/-- The tree with a line added to the file. -/
private def appended (f : RotatingFile) (t : FileTree) (line : String) : FileTree :=
  t.put (f.placeOf 0) (.file (t.bytesAt (f.placeOf 0) ++ Text.utf8 line))

/-- A line that is added to the file is the last of all that is held. -/
private theorem kept_appended (h : f.Openable env t) (line : String) :
    f.Openable env (f.appended t line) ∧ f.SameBeside t (f.appended t line) ∧
      f.kept (f.appended t line) = f.kept t ++ Text.utf8 line := by
  have hothers (place : List String) (hplace : place ≠ f.placeOf 0) :
      (f.appended t line).find? place = t.find? place := FileTree.find?_put_of_ne t hplace _
  have hnewest : (f.appended t line).find? (f.placeOf 0) = _ :=
    FileTree.find?_put t (h.placeOf_ne_nil 0) _
  obtain ⟨hsame, hopen⟩ := h.of_change (Nat.zero_le _) hothers (by simp [hnewest])
  refine ⟨hopen, hsame, stacked_append (FileTree.bytesAt_of_find? hnewest) fun age _ hage => ?_⟩
  exact FileTree.bytesAt_congr (hothers _ fun heq => hage (h.placeOf_inj heq))

/-- Before a line is added, what the file holds is moved aside if the line would bring it to its limit
and old files are kept; else all is left as it is. -/
private theorem exists_makeRoom (h : f.Openable env t) (line : String) :
    ∃ made dropped, f.makeRoom env t line = (made, true) ∧ f.Openable env made ∧ f.SameBeside t made ∧
      f.kept t = dropped ++ f.kept made ∧
      (dropped = [] ∨ (f.Full t line ∧ 0 < f.ages) ∧ dropped = t.bytesAt (f.placeOf f.ages)) ∧
      (f.Full t line ∧ 0 < f.ages → made.bytesAt (f.placeOf 0) = []) ∧
      (¬ (f.Full t line ∧ 0 < f.ages) → made.bytesAt (f.placeOf 0) = t.bytesAt (f.placeOf 0)) := by
  unfold makeRoom
  by_cases hfull : f.Full t line
  · have hages : f.backups.toNat = f.ages := (if_pos hfull.1).symm
    rw [if_pos ((isFull_iff h line).mpr hfull), hages]
    by_cases hzero : 0 < f.ages
    · obtain ⟨made, dropped, hall, hopen, hsame, hnewest, hkept, -, hdropped⟩ :=
        exists_ageAll h (Nat.le_refl _) (.inl rfl)
      exact ⟨made, dropped, hall, hopen, hsame, hkept,
        hdropped.imp_right fun hd => ⟨⟨hfull, hzero⟩, hd⟩,
        fun _ => FileTree.bytesAt_of_none (hnewest (.inl hzero)),
        fun hnot => absurd ⟨hfull, hzero⟩ hnot⟩
    · have hnone : f.ageAll env f.ages t = (t, true) := by
        rw [Nat.eq_zero_of_not_pos hzero]
        rfl
      exact ⟨t, [], hnone, h, .refl f t, rfl, .inl rfl, fun hboth => absurd hboth.2 hzero,
        fun _ => rfl⟩
  · rw [if_neg (mt (isFull_iff h line).mp hfull)]
    exact ⟨t, [], rfl, h, .refl f t, rfl, .inl rfl, fun hboth => absurd hboth.1 hfull, fun _ => rfl⟩

/-- A file that can be opened takes every line, and can be opened then. -/
theorem takes_write (h : f.Openable env t) (line : String) :
    f.Openable env (f.write env t line) ∧ f.Takes t line (f.write env t line) := by
  obtain ⟨made, dropped, hroom, hopen, hsame, hkept, hdropped, hfull, hnot⟩ := exists_makeRoom h line
  have hwrite : f.write env t line = f.appended made line := by
    have happend :=
      (FileTree.appendBytes_of_writable (hopen.writable_eq (Nat.zero_le _)) (Text.utf8 line)).1
    rw [pathOf_zero] at happend
    rw [write, hroom]
    dsimp only
    rw [happend]
    rfl
  obtain ⟨hopen', hsame', hkept'⟩ := kept_appended hopen line
  rw [hwrite]
  refine ⟨hopen', ⟨made.bytesAt (f.placeOf 0), ?_, hfull, hnot⟩, ⟨dropped, ?_, hdropped⟩,
    hsame.trans hsame'⟩
  · exact FileTree.find?_put made (hopen.placeOf_ne_nil 0) _
  · rw [hkept', hkept, List.append_assoc]

/-- Each of the lines, one after the other, is taken by the file. -/
inductive TakesAll (f : RotatingFile) : FileTree → List String → FileTree → Prop
  | nil (t : FileTree) : TakesAll f t [] t
  | cons {t t' t'' : FileTree} {line : String} {lines : List String} (h : f.Takes t line t')
      (hs : TakesAll f t' lines t'') : TakesAll f t (line :: lines) t''

namespace TakesAll

theorem append {t'' : FileTree} {lines more : List String} (h : f.TakesAll t lines t')
    (h' : f.TakesAll t' more t'') : f.TakesAll t (lines ++ more) t'' := by
  induction h with
  | nil => exact h'
  | cons htakes _ ih => exact .cons htakes (ih h')

/-- Whatever was held is held after all lines, and they after it, but for what was dropped from the
oldest end; where no old files are kept, nothing is. -/
theorem kept {lines : List String} (h : f.TakesAll t lines t') :
    ∃ dropped, f.kept t ++ lines.flatMap Text.utf8 = dropped ++ f.kept t' ∧
      (f.ages = 0 → dropped = []) := by
  induction h with
  | nil t => exact ⟨[], List.append_nil _, fun _ => rfl⟩
  | cons htakes _ ih =>
    obtain ⟨first, hfirst, hwhole⟩ := htakes.kept
    obtain ⟨rest, hrest, hnone⟩ := ih
    refine ⟨first ++ rest, ?_, fun hages => ?_⟩
    · rw [List.flatMap_cons, ← List.append_assoc, hfirst, List.append_assoc, hrest, List.append_assoc]
    · rcases hwhole with hempty | ⟨⟨-, hpos⟩, -⟩
      · rw [hempty, hnone hages]
        rfl
      · omega

/-- Nothing but the file and its old files differs after all lines. -/
theorem beside {lines : List String} (h : f.TakesAll t lines t') : f.SameBeside t t' := by
  induction h with
  | nil t => exact .refl f t
  | cons htakes _ ih => exact htakes.beside.trans ih

end TakesAll

end RotatingFile

end Groundplan.Logging
