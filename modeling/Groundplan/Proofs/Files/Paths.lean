import Groundplan.Files.Path
import Groundplan.Proofs.Text.Split

/-!
# Paths by their components

A path is its components with slashes between them. Joining paths goes through the components of one
and then through those of the other, and making a path absolute leaves the components that it leads
through, none of which is empty or a dot or two.
-/

namespace Groundplan

namespace Path

/-- A name that a directory can have an entry under. -/
structure IsName (name : String) : Prop where
  ne_empty : name ≠ ""
  ne_dot : name ≠ "."
  ne_dots : name ≠ ".."
  slash_not_mem : '/' ∉ name.toList

variable {kept : List String}

/-- The components so far, the last of which comes first, after a path was followed from them. -/
def through (kept : List String) (path : String) : List String :=
  (Text.split '/' path).foldl (pushComponent true) kept

theorem pushComponent_of_isName {name : String} (h : IsName name) :
    pushComponent true kept name = name :: kept := by
  simp [pushComponent, h.ne_empty, h.ne_dot, h.ne_dots]

/-- A slash stands between the components of a path. -/
private theorem split_append_slash (s t : String) :
    Text.split '/' (s ++ "/" ++ t) = Text.split '/' s ++ Text.split '/' t :=
  Text.split_append_mark '/' s t

/-- Only names are kept. -/
theorem isName_of_mem_foldl {parts : List String} (hparts : ∀ part ∈ parts, '/' ∉ part.toList)
    (hkept : ∀ name ∈ kept, IsName name) :
    ∀ name ∈ parts.foldl (pushComponent true) kept, IsName name := by
  induction parts generalizing kept with
  | nil => exact hkept
  | cons part parts ih =>
    obtain ⟨hpart, hparts⟩ := List.forall_mem_cons.mp hparts
    refine ih hparts ?_
    unfold pushComponent
    split
    · exact hkept
    · next hne =>
      rw [Bool.or_eq_true, not_or] at hne
      split
      · next hdots =>
        refine List.forall_mem_cons.mpr ⟨⟨?_, ?_, ?_, hpart⟩, hkept⟩
        · simpa using hne.1
        · simpa using hne.2
        · simpa using hdots
      · cases kept with
        | nil => simp
        | cons last before =>
          obtain ⟨hlast, hbefore⟩ := List.forall_mem_cons.mp hkept
          dsimp only
          rw [if_neg (by simpa using hlast.ne_dots)]
          exact hbefore

/-- Only names are kept on the way through a path. -/
theorem isName_of_mem_through (hkept : ∀ name ∈ kept, IsName name) (path : String) :
    ∀ name ∈ through kept path, IsName name :=
  isName_of_mem_foldl (fun _ => Text.not_mem_of_mem_split) hkept

theorem ne_empty_of_isAbsolute {path : String} (h : isAbsolute path = true) : path ≠ "" := by
  rintro rfl
  cases h

/-- A path without a slash is seen from a directory. -/
theorem isAbsolute_of_not_mem {path : String} (h : '/' ∉ path.toList) : isAbsolute path = false := by
  rw [isAbsolute, beq_eq_false_iff_ne]
  exact fun hs => h (List.mem_of_mem_head? hs)

/-- A path without a slash is one component. -/
theorem through_of_not_mem {name : String} (h : '/' ∉ name.toList) :
    through kept name = pushComponent true kept name := by
  rw [through, Text.split_of_not_mem h]
  rfl

theorem through_append_slash (s t : String) :
    through kept (s ++ "/" ++ t) = through (through kept s) t := by
  rw [through, split_append_slash, List.foldl_append]
  rfl

theorem through_empty : through kept "" = kept := rfl

/-- A path seen from a directory goes through the directory first. -/
theorem through_join {path : String} (h : isAbsolute path = false) (directory : String) :
    through kept (join directory path) = through (through kept directory) path := by
  rw [join, h, if_neg (by simp)]
  split
  · next hend =>
    rcases Bool.or_eq_true _ _ ▸ hend with hempty | hslash
    · rw [String.isEmpty_iff] at hempty
      rw [hempty, through_empty, String.empty_append]
    · obtain ⟨cs, hcs⟩ : ∃ cs, directory.toList = cs ++ ['/'] :=
        List.getLast?_eq_some_iff.mp (beq_iff_eq.mp hslash)
      have hdirectory : directory = String.ofList cs ++ "/" ++ "" := by
        rw [← String.toList_inj, hcs]
        simp
      rw [hdirectory, through_append_slash, through_empty, String.append_empty, through_append_slash]
  · exact through_append_slash directory path

/-- A path that is seen from a directory starts like the directory. -/
private theorem exists_join_eq {directory path : String} (h : isAbsolute path = false)
    (hne : directory ≠ "") : ∃ c cs ds, directory.toList = c :: cs ∧
      (join directory path).toList = c :: ds := by
  obtain ⟨c, cs, hcs⟩ : ∃ c cs, directory.toList = c :: cs := by
    cases hcs : directory.toList with
    | nil => exact absurd (String.toList_eq_nil_iff.mp hcs) hne
    | cons c cs => exact ⟨c, cs, rfl⟩
  rw [join, h, if_neg (by simp)]
  split <;> exact ⟨c, cs, _, hcs, by simp [hcs]; rfl⟩

/-- A directory decides whether a path that is seen from it is absolute. -/
theorem isAbsolute_join {directory path : String} (h : isAbsolute path = false)
    (hne : directory ≠ "") : isAbsolute (join directory path) = isAbsolute directory := by
  obtain ⟨c, cs, ds, hcs, hds⟩ := exists_join_eq h hne
  rw [isAbsolute, isAbsolute, hcs, hds]
  rfl

theorem join_ne_empty {directory path : String} (h : isAbsolute path = false)
    (hne : directory ≠ "") : join directory path ≠ "" := by
  obtain ⟨c, cs, ds, -, hds⟩ := exists_join_eq h hne
  intro he
  rw [he] at hds
  cases hds

/-- The components of an absolute path are what it leads through. -/
theorem components_of_isAbsolute {path : String} (h : isAbsolute path = true) :
    components path = (through [] path).reverse := by
  rw [components, h]
  rfl

/-- The components of an absolute path are names. -/
theorem isName_of_mem_components {path : String} (h : isAbsolute path = true) :
    ∀ name ∈ components path, IsName name := by
  intro name hname
  rw [components_of_isAbsolute h, List.mem_reverse] at hname
  exact isName_of_mem_through (by simp) path name hname

/-- An absolute path starts with one slash or two once it is normal. -/
theorem leadingSlashes_eq {path : String} (h : isAbsolute path = true) :
    leadingSlashes path = "/" ∨ leadingSlashes path = "//" := by
  unfold leadingSlashes
  split
  · exact .inl rfl
  · exact .inr rfl
  · exact .inl rfl
  · next hchars =>
    cases hcs : path.toList with
    | nil => simp [isAbsolute, hcs] at h
    | cons c cs =>
      obtain rfl : c = '/' := by simpa [isAbsolute, hcs] using h
      exact absurd hcs (hchars cs)

/-- The text of a normal absolute path. -/
theorem normalize_of_isAbsolute (h : isAbsolute path = true) :
    normalize path = leadingSlashes path ++ "/".intercalate (components path) := by
  rw [normalize, if_neg]
  rcases leadingSlashes_eq h with hs | hs <;> simp [hs, String.isEmpty_iff]

/-- The path is names with slashes between them, after one or more. -/
structure Spells (path : String) (names : List String) : Prop where
  isAbsolute : isAbsolute path = true
  ne_nil : names ≠ []
  isName : ∀ name ∈ names, IsName name
  split_eq : ∃ k, Text.split '/' path = List.replicate (k + 1) "" ++ names

/-- An absolute path that leads anywhere spells its components once it is normal. -/
theorem spells_normalize {path : String} (h : isAbsolute path = true) (hne : components path ≠ []) :
    Spells (normalize path) (components path) := by
  have hnames := isName_of_mem_components h
  have hslashes := leadingSlashes_eq h
  have htext := normalize_of_isAbsolute h
  have hsplit : Text.split '/' ("/".intercalate (components path)) = components path :=
    Text.split_intercalate hne fun name hname => (hnames name hname).slash_not_mem
  have hslash (s : String) : Text.split '/' ("/" ++ s) = "" :: Text.split '/' s :=
    split_append_slash "" s
  refine ⟨?_, hne, hnames, ?_⟩
  · rw [htext]
    rcases hslashes with hs | hs <;> simp [isAbsolute, hs]
  · rcases hslashes with hs | hs
    · refine ⟨0, ?_⟩
      rw [htext, hs, hslash, hsplit]
      rfl
    · refine ⟨1, ?_⟩
      have htwo : ("//" : String) = "/" ++ "/" := rfl
      rw [htext, hs, htwo, String.append_assoc, hslash, hslash, hsplit]
      rfl

/-- A path leads through the names that it spells. -/
theorem Spells.components_eq {path : String} {names : List String} (h : Spells path names) :
    components path = names := by
  have hempty (n : Nat) : (List.replicate n "").foldl (pushComponent true) [] = [] := by
    induction n with
    | zero => rfl
    | succ n ih => exact ih
  have hnames (names kept : List String) (hnames : ∀ name ∈ names, IsName name) :
      names.foldl (pushComponent true) kept = names.reverse ++ kept := by
    induction names generalizing kept with
    | nil => rfl
    | cons name names ih =>
      obtain ⟨hname, hnames⟩ := List.forall_mem_cons.mp hnames
      rw [List.foldl_cons, pushComponent_of_isName hname, ih _ hnames, List.reverse_cons,
        List.append_assoc, List.singleton_append]
  obtain ⟨k, hsplit⟩ := h.split_eq
  rw [components_of_isAbsolute h.isAbsolute, through, hsplit, List.foldl_append, hempty,
    hnames _ _ h.isName, List.append_nil, List.reverse_reverse]

/-- The components, the last of which comes first, of what a path is seen from. -/
def start (env : Environment) (path : String) : List String :=
  if isAbsolute path then [] else through [] env.cwd

theorem start_join {env : Environment} {directory path : String} (h : isAbsolute path = false)
    (hne : directory ≠ "") : start env (join directory path) = start env directory := by
  rw [start, start, isAbsolute_join h hne]

/-- What is made normal when a path is made absolute. -/
theorem exists_absolute_eq {env : Environment} (hcwd : isAbsolute env.cwd = true) (path : String) :
    ∃ full, isAbsolute full = true ∧ absolute env path = normalize full ∧
      through [] full = through (start env path) path := by
  have hne := ne_empty_of_isAbsolute hcwd
  cases h : isAbsolute path with
  | true => exact ⟨path, h, by rw [absolute, if_pos h], by rw [start, if_pos h]⟩
  | false =>
    exact ⟨join env.cwd path, (isAbsolute_join h hne).trans hcwd, by rw [absolute, if_neg (by simp [h])],
      by rw [through_join h, start, if_neg (by simp [h])]⟩

/-- A path that leads anywhere from an absolute working directory spells its components once it is
absolute. -/
theorem spells_absolute {env : Environment} (hcwd : Path.isAbsolute env.cwd = true) {path : String}
    (hne : through (start env path) path ≠ []) :
    Spells (absolute env path) (through (start env path) path).reverse := by
  obtain ⟨full, hfull, habsolute, hthrough⟩ := exists_absolute_eq hcwd path
  rw [← List.reverse_ne_nil_iff] at hne
  rw [habsolute]
  rw [← hthrough, ← components_of_isAbsolute hfull] at hne ⊢
  exact spells_normalize hfull hne

end Path

end Groundplan
