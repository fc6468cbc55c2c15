import Groundplan.Proofs.Files.NormalPaths
import Groundplan.Proofs.Files.Writing

/-!
# Following paths

A path that can be followed leads to the components of its absolute form. The converse fails: every
directory that a path names on the way has to be there, also one that two dots leave again, while
making the path absolute drops it unseen.
-/

namespace Groundplan

namespace Path

variable {env : Environment} {path name : String} {kept : List String}

/-- Whether a text is a name can be computed. -/
instance (name : String) : Decidable (IsName name) :=
  decidable_of_iff (name ≠ "" ∧ name ≠ "." ∧ name ≠ ".." ∧ '/' ∉ name.toList)
    ⟨fun h => ⟨h.1, h.2.1, h.2.2.1, h.2.2.2⟩,
      fun h => ⟨h.ne_empty, h.ne_dot, h.ne_dots, h.slash_not_mem⟩⟩

/-- A name that follows a path does not decide whether it is absolute. -/
theorem isAbsolute_join_of_isName (h : IsName name) (path : String) :
    isAbsolute (join path name) = isAbsolute path := by
  by_cases hne : path = ""
  · rw [hne, join_eq_gap h.isAbsolute_eq]
    show isAbsolute ("" ++ "" ++ name) = false
    rw [String.empty_append, String.empty_append, h.isAbsolute_eq]
  · exact isAbsolute_join h.isAbsolute_eq hne

/-- A name that follows a path is the last of its parts, and before it are those of the path but for
an empty one. -/
theorem exists_split_join (h : IsName name) (path : String) :
    ∃ parts, Text.split '/' (join path name) = parts ++ [name] ∧
      (Text.split '/' path = parts ∨ Text.split '/' path = parts ++ [""]) := by
  have hname : Text.split '/' name = [name] := Text.split_of_not_mem h.slash_not_mem
  rw [join_eq_gap h.isAbsolute_eq, gap]
  split
  · next hend =>
    rw [String.append_empty]
    rcases Bool.or_eq_true _ _ ▸ hend with hempty | hslash
    · rw [String.isEmpty_iff] at hempty
      exact ⟨[], by rw [hempty, String.empty_append, hname]; rfl, .inr (by rw [hempty]; rfl)⟩
    · obtain ⟨cs, hcs⟩ : ∃ cs, path.toList = cs ++ ['/'] :=
        List.getLast?_eq_some_iff.mp (beq_iff_eq.mp hslash)
      have hpath : path = String.ofList cs ++ "/" := by
        rw [← String.toList_inj, hcs]
        simp
      have hsplit (s : String) : Text.split '/' (String.ofList cs ++ "/" ++ s) =
          Text.split '/' (String.ofList cs) ++ Text.split '/' s := Text.split_append_mark '/' _ _
      refine ⟨Text.split '/' (String.ofList cs), ?_, .inr ?_⟩
      · rw [hpath, hsplit, hname]
      · rw [hpath, ← String.append_empty (s := String.ofList cs ++ "/"), hsplit]
        rfl
  · exact ⟨Text.split '/' path, by rw [← hname]; exact Text.split_append_mark '/' path name, .inl rfl⟩

/-- The characters of a path with a name at its end. -/
theorem mem_join_iff (h : IsName name) {c : Char} (hc : c ≠ '/') (path : String) :
    c ∈ (join path name).toList ↔ c ∈ path.toList ∨ c ∈ name.toList := by
  have hgap : c ∉ (gap path).toList := by
    unfold gap
    split <;> simp [hc]
  rw [join_eq_gap h.isAbsolute_eq]
  simp [hgap]

/-- The characters of the names that a path spells are the path's. -/
theorem Spells.mem_of_mem {names : List String} (hs : Spells path names) (hname : name ∈ names)
    {c : Char} (hc : c ∈ name.toList) : c ∈ path.toList := by
  have hne : c ≠ '/' := fun he => (hs.isName name hname).slash_not_mem (he ▸ hc)
  obtain ⟨k, hsplit⟩ := hs.split_eq
  exact (Text.mem_iff_mem_split hne path).mpr
    ⟨name, hsplit ▸ List.mem_append_right _ hname, hc⟩

/-- A name that follows a path is the last component once both are absolute. -/
theorem components_absolute_join (hcwd : isAbsolute env.cwd = true) (h : IsName name) (path : String) :
    components (absolute env (join path name)) = components (absolute env path) ++ [name] := by
  have hstart : start env (join path name) = start env path := by
    rw [start, start, isAbsolute_join_of_isName h]
  rw [components_absolute hcwd, components_absolute hcwd, hstart, through_join h.isAbsolute_eq,
    through_of_not_mem h.slash_not_mem, pushComponent_of_isName h, List.reverse_cons]

end Path

namespace FileTree

variable {t t' : FileTree} {env : Environment} {path name : String} {place place' : List String}

/-! ### Going through directories -/

theorem descend_append (names more : List String) : t.descend place (names ++ more) =
    (t.descend place names).bind fun found => t.descend found more := by
  fun_induction t.descend place names with
  | case1 => rfl
  | case2 _ _ _ hdot ih => rw [List.cons_append, descend, if_pos hdot, ih]
  | case3 _ _ _ hdot hdots ih => rw [List.cons_append, descend, if_neg hdot, if_pos hdots, ih]
  | case4 _ _ _ hdot hdots hlong =>
    rw [List.cons_append, descend, if_neg hdot, if_neg hdots, if_pos hlong]
    rfl
  | case5 _ _ _ hdot hdots hlong hfind =>
    rw [List.cons_append, descend, if_neg hdot, if_neg hdots, if_neg hlong, hfind]
    rfl
  | case6 _ _ _ hdot hdots hlong _ hfind =>
    rw [List.cons_append, descend, if_neg hdot, if_neg hdots, if_neg hlong, hfind]
    rfl
  | case7 _ _ _ hdot hdots hlong hfind ih =>
    rw [List.cons_append, descend, if_neg hdot, if_neg hdots, if_neg hlong, hfind]
    exact ih

/-- One more name leads on to a directory. -/
theorem descend_concat_eq_ok {names : List String} (h : Path.IsName name) :
    t.descend place (names ++ [name]) = .ok place' ↔
      isLongName name = false ∧ ∃ found, t.descend place names = .ok found ∧
        t.find? (found ++ [name]) = some .directory ∧ place' = found ++ [name] := by
  rw [descend_append]
  cases t.descend place names with
  | error e => simp [Except.bind]
  | ok found =>
    show t.descend found [name] = .ok place' ↔ _
    rw [descend, if_neg (by simp [h.ne_empty, h.ne_dot]), if_neg (by simp [h.ne_dots])]
    cases isLongName name with
    | true => simp
    | false =>
      rw [if_neg (by simp)]
      cases hfind : t.find? (found ++ [name]) with
      | none => simp [hfind]
      | some e => cases e <;> simp [hfind, descend, eq_comm]

/-- The way through directories leads where the parts do by themselves. -/
theorem reverse_of_descend {names : List String} (hplace : ∀ name ∈ place, Path.IsName name)
    (hnames : ∀ name ∈ names, '/' ∉ name.toList) (h : t.descend place names = .ok place') :
    place'.reverse = names.foldl (Path.pushComponent true) place.reverse := by
  fun_induction t.descend place names with
  | case1 =>
    cases h
    rfl
  | case2 _ _ _ hdot ih =>
    rw [List.foldl_cons, Path.pushComponent.eq_def, if_pos hdot]
    exact ih hplace (List.forall_mem_cons.mp hnames).2 h
  | case3 place name rest hdot hdots ih =>
    have hpush : Path.pushComponent true place.reverse name = place.dropLast.reverse := by
      rw [Path.pushComponent.eq_def, if_neg hdot, if_neg (by simpa using hdots)]
      rcases List.eq_nil_or_concat place with rfl | ⟨before, last, rfl⟩
      · rfl
      · have hlast := hplace last (by simp)
        simp [hlast.ne_dots]
    rw [List.foldl_cons, hpush]
    exact ih (fun _ hm => hplace _ ((List.dropLast_sublist place).subset hm))
      (List.forall_mem_cons.mp hnames).2 h
  | case4 => cases h
  | case5 => cases h
  | case6 => cases h
  | case7 place name rest hdot hdots _ _ ih =>
    obtain ⟨hslash, hrest⟩ := List.forall_mem_cons.mp hnames
    have hname : Path.IsName name := by
      refine ⟨?_, ?_, by simpa using hdots, hslash⟩ <;> rintro rfl <;> simp at hdot
    rw [List.foldl_cons, Path.pushComponent_of_isName hname, ih ?_ hrest h, List.reverse_append]
    · rfl
    · exact fun m hm => (List.mem_append.mp hm).elim (hplace m) fun hm =>
        List.mem_singleton.mp hm ▸ hname

/-- The way through directories stays with names. -/
theorem isName_of_descend {names : List String} (hplace : ∀ name ∈ place, Path.IsName name)
    (hnames : ∀ name ∈ names, '/' ∉ name.toList) (h : t.descend place names = .ok place') :
    ∀ name ∈ place', Path.IsName name := by
  intro name hname
  rw [← List.mem_reverse, reverse_of_descend hplace hnames h] at hname
  exact Path.isName_of_mem_foldl hnames (fun m hm => hplace m (List.mem_reverse.mp hm)) name hname

/-! ### Following to the end -/

/-- The directory that the way through a path starts from. -/
def origin (env : Environment) (path : String) : List String :=
  if Path.isAbsolute path then [] else Path.components env.cwd

/-- The directory that a path leads to. -/
def reach (t : FileTree) (env : Environment) (path : String) : Except PathFault (List String) :=
  t.descend (origin env path) (Text.split '/' path)

/-- A path that may be looked for at all. -/
structure IsLegal (path : String) : Prop where
  null_not_mem : '\x00' ∉ path.toList
  size_lt : path.utf8ByteSize < pathLimit

/-- What is before the name at the end of a path may be looked for if the path may. -/
theorem IsLegal.of_join (h : Path.IsName name) (hl : IsLegal (Path.join path name)) : IsLegal path := by
  rw [Path.join_eq_gap h.isAbsolute_eq] at hl
  constructor
  · intro hnull
    exact hl.null_not_mem (by simp [hnull])
  · have hsize := hl.size_lt
    rw [String.utf8ByteSize_append, String.utf8ByteSize_append] at hsize
    omega

theorem origin_join (h : Path.IsName name) (path : String) :
    origin env (Path.join path name) = origin env path := by
  rw [origin, origin, Path.isAbsolute_join_of_isName h]

theorem isName_of_mem_origin (hcwd : Path.isAbsolute env.cwd = true) :
    ∀ name ∈ origin env path, Path.IsName name := by
  unfold origin
  split
  · simp
  · exact Path.isName_of_mem_components hcwd

theorem reverse_origin (hcwd : Path.isAbsolute env.cwd = true) (path : String) :
    (origin env path).reverse = Path.start env path := by
  rw [origin, Path.start]
  split
  · rfl
  · rw [Path.components_of_isAbsolute hcwd, List.reverse_reverse]

/-- A part that is empty leads nowhere. -/
private theorem descend_parts {parts : List String}
    (h : Text.split '/' path = parts ∨ Text.split '/' path = parts ++ [""]) :
    t.descend place parts = t.descend place (Text.split '/' path) := by
  rcases h with h | h
  · rw [h]
  · rw [h, descend_append]
    cases t.descend place parts <;> rfl

/-- A path with a name at its end leads to a directory. -/
theorem reach_join_eq_ok (h : Path.IsName name) : t.reach env (Path.join path name) = .ok place' ↔
    isLongName name = false ∧ ∃ place, t.reach env path = .ok place ∧
      t.find? (place ++ [name]) = some .directory ∧ place' = place ++ [name] := by
  obtain ⟨parts, hparts, hpath⟩ := Path.exists_split_join h path
  rw [reach, reach, origin_join h, hparts, descend_concat_eq_ok h, descend_parts hpath]

/-- A path with a name at its end can be followed if what is before the name leads to a directory. -/
theorem follow_join_eq_ok (h : Path.IsName name) {r : List String × Bool} :
    t.follow env (Path.join path name) = .ok r ↔
      IsLegal (Path.join path name) ∧ isLongName name = false ∧
        ∃ place, t.reach env path = .ok place ∧ r = (place ++ [name], false) := by
  obtain ⟨parts, hparts, hpath⟩ := Path.exists_split_join h path
  have hne : Path.join path name ≠ "" := by
    intro he
    rw [he] at hparts
    have hsingle : [""] = parts ++ [name] := hparts
    cases parts with
    | nil => exact h.ne_empty (List.cons.inj hsingle).1.symm
    | cons part parts => simp at hsingle
  have hkept : ((parts ++ [name]).reverse.dropWhile String.isEmpty).reverse = parts ++ [name] := by
    rw [List.reverse_append, List.reverse_singleton, List.singleton_append,
      List.dropWhile_cons_of_neg (by simp [h.ne_empty])]
    simp
  have happroach : t.approach env.cwd (Path.join path name) =
      if (Path.join path name).utf8ByteSize ≥ pathLimit then .error .nameTooLong
      else (t.reach env path).map fun place => (place, some name, false) := by
    rw [approach, if_neg (by simpa [String.isEmpty_iff] using hne)]
    dsimp only
    rw [hparts, hkept, List.getLast?_concat, List.dropLast_concat, reach, ← descend_parts hpath,
      ← origin_join h path, origin]
    simp
  rw [follow_eq_ok, locate, happroach]
  by_cases hlong : (Path.join path name).utf8ByteSize ≥ pathLimit
  · rw [if_pos hlong]
    constructor
    · rintro ⟨-, h⟩
      cases h
    · rintro ⟨hlegal, -⟩
      exact absurd hlegal.size_lt (by omega)
  · rw [if_neg hlong]
    have hlegal : IsLegal (Path.join path name) ↔ '\x00' ∉ (Path.join path name).toList :=
      ⟨fun h => h.null_not_mem, fun h => ⟨h, by omega⟩⟩
    rw [hlegal]
    refine and_congr_right fun _ => ?_
    cases t.reach env path with
    | error e => simp [Except.map, bind, Except.bind]
    | ok place =>
      simp only [Except.map, bind, Except.bind]
      rw [if_neg (by simp [h.ne_dot]), if_neg (by simp [h.ne_dots])]
      cases isLongName name with
      | true => simp [throw, throwThe, MonadExceptOf.throw]
      | false => simp [pure, Except.pure, eq_comm]

/-- What a path leads to is the components of its absolute form. -/
theorem components_of_reach (hcwd : Path.isAbsolute env.cwd = true)
    (h : t.reach env path = .ok place) : place = Path.components (Path.absolute env path) := by
  have hreverse := reverse_of_descend (isName_of_mem_origin hcwd)
    (fun _ => Text.not_mem_of_mem_split) h
  rw [reverse_origin hcwd] at hreverse
  rw [Path.components_absolute hcwd, Path.through, ← hreverse, List.reverse_reverse]

/-- So does a path with a name at its end, whether or not anything stands there. -/
theorem components_of_follow_join (hcwd : Path.isAbsolute env.cwd = true) (h : Path.IsName name)
    {r : List String × Bool} (hf : t.follow env (Path.join path name) = .ok r) :
    r = (Path.components (Path.absolute env (Path.join path name)), false) := by
  obtain ⟨-, -, place, hreach, rfl⟩ := (follow_join_eq_ok h).mp hf
  rw [Path.components_absolute_join hcwd h, ← components_of_reach hcwd hreach]

/-- Whatever can be followed leads to names. -/
theorem isName_of_follow (hcwd : Path.isAbsolute env.cwd = true) {slashed : Bool}
    (h : t.follow env path = .ok (place, slashed)) : ∀ name ∈ place, Path.IsName name := by
  obtain ⟨-, hlocate⟩ := follow_eq_ok.mp h
  rw [locate] at hlocate
  obtain ⟨found, happroach, hrest⟩ := bind_eq_ok.mp hlocate
  unfold approach at happroach
  split at happroach
  · cases happroach
  split at happroach
  · cases happroach
  dsimp only at happroach
  have hslash : ∀ part ∈ ((Text.split '/' path).reverse.dropWhile String.isEmpty).reverse,
      '/' ∉ part.toList := fun part hpart => Text.not_mem_of_mem_split
    (List.mem_reverse.mp ((List.dropWhile_sublist _).subset (List.mem_reverse.mp hpart)))
  have hlast : ∀ part, ((Text.split '/' path).reverse.dropWhile
      String.isEmpty).reverse.getLast? = some part → part ≠ "" := by
    intro part hpart
    have hhead := List.head?_dropWhile_not String.isEmpty (Text.split '/' path).reverse
    rw [List.getLast?_reverse] at hpart
    rw [hpart] at hhead
    simpa [String.isEmpty_iff] using hhead
  generalize ((Text.split '/' path).reverse.dropWhile String.isEmpty).reverse = kept
    at happroach hslash hlast
  split at happroach
  · cases happroach
    cases hrest
    simp
  · next last hend =>
    obtain ⟨directory, hdescend, rfl⟩ := map_eq_ok.mp happroach
    have horigin : ∀ name ∈ origin env path, Path.IsName name := isName_of_mem_origin hcwd
    have hdirectory := isName_of_descend horigin
      (fun part hpart => hslash part ((List.dropLast_sublist kept).subset hpart)) hdescend
    dsimp only at hrest
    split at hrest
    · cases hrest
      exact hdirectory
    next hdot =>
    split at hrest
    · cases hrest
      exact fun name hname => hdirectory name ((List.dropLast_sublist directory).subset hname)
    next hdots =>
    split at hrest
    · cases hrest
    · cases hrest
      have hname : Path.IsName last := ⟨hlast last hend, by simpa using hdot, by simpa using hdots,
        hslash last (List.mem_of_getLast? hend)⟩
      exact fun name hm => (List.mem_append.mp hm).elim (hdirectory name)
        fun hm => List.mem_singleton.mp hm ▸ hname

/-! ### Paths without a double dot -/

/-- A part that is a name, unless it is two dots. -/
def counts (part : String) : Bool := !(part.isEmpty || part == ".")

/-- Without two dots among them, parts lead down by those that count. -/
theorem descend_filter_counts {parts : List String} (hdots : ".." ∉ parts) (place : List String) :
    t.descend place (parts.filter counts) = t.descend place parts := by
  induction parts generalizing place with
  | nil => rfl
  | cons part parts ih =>
    rw [List.mem_cons, not_or] at hdots
    have hne : ¬(part == "..") = true := by simpa using Ne.symm hdots.1
    cases hcounts : part.isEmpty || part == "." with
    | true =>
      rw [List.filter_cons_of_neg (by simp [counts, hcounts]), descend, if_pos hcounts, ih hdots.2]
    | false =>
      have hcounts' : ¬(part.isEmpty || part == ".") = true := by simp [hcounts]
      rw [List.filter_cons_of_pos (by simp [counts, hcounts]), descend, descend, if_neg hcounts',
        if_neg hcounts', if_neg hne, if_neg hne]
      split
      · rfl
      · split
        · rfl
        · rfl
        · exact ih hdots.2 _

/-- Without two dots among them, those parts that count are what a path goes through. -/
theorem foldl_pushComponent_of_not_mem {parts : List String} (hdots : ".." ∉ parts)
    (kept : List String) :
    parts.foldl (Path.pushComponent true) kept = (parts.filter counts).reverse ++ kept := by
  induction parts generalizing kept with
  | nil => rfl
  | cons part parts ih =>
    rw [List.mem_cons, not_or] at hdots
    have hne : part != ".." := by simpa using Ne.symm hdots.1
    rw [List.foldl_cons, ih hdots.2, Path.pushComponent.eq_def]
    cases hcounts : part.isEmpty || part == "." with
    | true => rw [List.filter_cons_of_neg (by simp [counts, hcounts]), if_pos (by simp)]
    | false =>
      rw [List.filter_cons_of_pos (by simp [counts, hcounts]), if_neg (by simp), if_pos hne]
      simp

/-- The components of a path without two dots. -/
theorem components_absolute_of_not_mem (hcwd : Path.isAbsolute env.cwd = true)
    (hdots : ".." ∉ Text.split '/' path) : Path.components (Path.absolute env path) =
      origin env path ++ (Text.split '/' path).filter counts := by
  rw [Path.components_absolute hcwd, Path.through, foldl_pushComponent_of_not_mem hdots,
    ← reverse_origin hcwd, List.reverse_append, List.reverse_reverse, List.reverse_reverse]

/-- A path without two dots leads to the components of its absolute form where all of them are
directories. -/
theorem reach_of_not_mem (hcwd : Path.isAbsolute env.cwd = true) (hdots : ".." ∉ Text.split '/' path)
    (h : t.descend [] (Path.components (Path.absolute env path)) = .ok place) :
    t.reach env path = .ok (Path.components (Path.absolute env path)) := by
  rw [components_absolute_of_not_mem hcwd hdots, descend_append] at h
  obtain ⟨start, hstart, hrest⟩ := bind_eq_ok.mp h
  obtain rfl : start = origin env path := descend_eq_append (isName_of_mem_origin hcwd) hstart
  have hreach : t.reach env path = .ok place := by
    rw [reach, ← descend_filter_counts hdots, hrest]
  rw [hreach, components_of_reach hcwd hreach]

/-- A path without two dots has no null character if its components have none. -/
theorem null_not_mem_of_components (hcwd : Path.isAbsolute env.cwd = true)
    (hdots : ".." ∉ Text.split '/' path)
    (h : ∀ name ∈ Path.components (Path.absolute env path), '\x00' ∉ name.toList) :
    '\x00' ∉ path.toList := by
  intro hnull
  have hne : '\x00' ≠ '/' := by decide
  obtain ⟨part, hpart, hmem⟩ := (Text.mem_iff_mem_split hne path).mp hnull
  refine h part ?_ hmem
  rw [components_absolute_of_not_mem hcwd hdots]
  refine List.mem_append_right _ (List.mem_filter.mpr ⟨hpart, ?_⟩)
  have hempty : part ≠ "" := by
    rintro rfl
    simp at hmem
  have hdot : part ≠ "." := by
    rintro rfl
    simp at hmem
  simp [counts, hempty, hdot]

/-! ### Proper trees -/

/-- No place is listed twice, and all are reached by names. -/
structure Proper (t : FileTree) : Prop where
  nodup_places : (t.entries.map (·.1)).Nodup
  isName : ∀ e ∈ t.entries, ∀ name ∈ e.1, Path.IsName name

namespace Proper

theorem put (h : t.Proper) (hplace : ∀ name ∈ place, Path.IsName name) (e : FileEntry) :
    (t.put place e).Proper where
  nodup_places := by
    have hkept := (List.filter_sublist (l := t.entries) (p := fun f => f.1 ≠ place)).map (·.1)
    rw [FileTree.put, List.map_append, List.nodup_append]
    refine ⟨h.nodup_places.sublist hkept, by simp, ?_⟩
    rintro other hother found hfound rfl
    obtain ⟨f, hf, rfl⟩ := List.mem_map.mp hother
    have hne : f.1 ≠ place := by simpa using (List.mem_filter.mp hf).2
    exact hne (List.mem_singleton.mp hfound)
  isName f hf := by
    rcases List.mem_append.mp hf with hf | hf
    · exact h.isName f (List.mem_filter.mp hf).1
    · rw [List.mem_singleton.mp hf]
      exact hplace

/-- A tree is proper after a text was written. -/
theorem writeText (hcwd : Path.isAbsolute env.cwd = true) (h : t.Proper) {content : String}
    (hwrite : t.writeText env path content = (t', .ok ())) : t'.Proper := by
  obtain ⟨made, place, slashed, hmade, hfollow, -, rfl⟩ := writeText_eq_ok hwrite
  have hproper : made.Proper := hmade ▸ ensureDirectory_induction
    (fun hfollow _ h => h.put (isName_of_follow hcwd hfollow) _) h _
  exact hproper.put (isName_of_follow hcwd hfollow) _

end Proper

/-- What stands in a directory is listed there. -/
theorem mem_namesIn_of_find? (h : t.find? (place ++ [name]) ≠ none) : name ∈ t.namesIn place := by
  have hne : (place ++ [name]).isEmpty = false := by simp
  rw [find?, hne, if_neg (by simp), Ne, Option.map_eq_none_iff] at h
  obtain ⟨e, he⟩ := Option.ne_none_iff_exists'.mp h
  have hplace : e.1 = place ++ [name] := by simpa using List.find?_some he
  refine List.mem_filterMap.mpr ⟨e, List.mem_of_find?_eq_some he, ?_⟩
  simp [hplace]

/-- Only what stands in a directory is listed there. -/
theorem exists_of_mem_namesIn (h : name ∈ t.namesIn place) :
    ∃ e ∈ t.entries, e.1 = place ++ [name] := by
  obtain ⟨e, he, hname⟩ := List.mem_filterMap.mp h
  split at hname
  · next last hlast =>
    split at hname
    · next hdrop =>
      cases hname
      obtain ⟨before, hbefore⟩ := List.getLast?_eq_some_iff.mp hlast
      exact ⟨e, he, by rw [← hdrop, hbefore, List.dropLast_concat]⟩
    · cases hname
  · cases hname

namespace Proper

/-- What is listed in a directory of a proper tree is a name. -/
theorem isName_of_mem_namesIn (h : t.Proper) (hname : name ∈ t.namesIn place) : Path.IsName name := by
  obtain ⟨e, he, hplace⟩ := exists_of_mem_namesIn hname
  exact h.isName e he name (by simp [hplace])

/-- No name is listed twice. -/
theorem nodup_namesIn (h : t.Proper) (place : List String) : (t.namesIn place).Nodup := by
  have hpairs : t.entries.Pairwise fun e f => e.1 ≠ f.1 := List.pairwise_map.mp h.nodup_places
  refine hpairs.filterMap _ fun e f hne name hname other hother heq => hne ?_
  -- each of the two is what a tree with nothing else would list
  obtain ⟨e', he', hplace⟩ := @exists_of_mem_namesIn ⟨[e]⟩ name place
    (List.mem_filterMap.mpr ⟨e, List.mem_singleton_self e, hname⟩)
  obtain ⟨f', hf', hplace'⟩ := @exists_of_mem_namesIn ⟨[f]⟩ other place
    (List.mem_filterMap.mpr ⟨f, List.mem_singleton_self f, hother⟩)
  rw [List.mem_singleton.mp he'] at hplace
  rw [List.mem_singleton.mp hf'] at hplace'
  rw [hplace, hplace', heq]

end Proper

/-- The bytes of a file are read where its path leads. -/
theorem readBytes_eq_ok {bytes : List UInt8} : t.readBytes env path = .ok bytes ↔
    ∃ place, t.follow env path = .ok (place, false) ∧ t.find? place = some (.file bytes) := by
  rw [readBytes]
  cases t.follow env path with
  | error e => simp [bind, Except.bind]
  | ok r =>
    obtain ⟨place, slashed⟩ := r
    simp only [bind, Except.bind]
    cases hfind : t.find? place with
    | none => simp [throw, throwThe, MonadExceptOf.throw, hfind]
    | some e =>
      cases e with
      | directory => simp [throw, throwThe, MonadExceptOf.throw, hfind]
      | file bytes' =>
        cases slashed <;> simp [throw, throwThe, MonadExceptOf.throw, pure, Except.pure, hfind]

/-- A file is where bytes can be read. -/
theorem isFile_iff : t.isFile env path = true ↔ ∃ bytes, t.readBytes env path = .ok bytes := by
  rw [isFile, lookup, readBytes]
  cases t.follow env path with
  | error e => simp [bind, Except.bind]
  | ok r =>
    obtain ⟨place, slashed⟩ := r
    simp only [bind, Except.bind]
    cases t.find? place with
    | none => simp [throw, throwThe, MonadExceptOf.throw]
    | some e =>
      cases e with
      | directory => simp [throw, throwThe, MonadExceptOf.throw]
      | file bytes => cases slashed <;> simp [throw, throwThe, MonadExceptOf.throw, pure, Except.pure]

end FileTree

end Groundplan
