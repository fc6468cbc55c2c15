import Groundplan.Proofs.Files.Paths

/-!
# Normal paths

Making a path absolute keeps what it leads through, and a name that follows a directory follows it
still once both are absolute. So the absolute path of what is below a directory is the directory's,
with the names below it after that.
-/

namespace Groundplan

namespace Path

variable {env : Environment} {path name : String}

/-! ### Joining by itself -/

/-- What stands between a directory and a path that is seen from it. -/
def gap (directory : String) : String :=
  if directory.isEmpty || directory.toList.getLast? == some '/' then "" else "/"

theorem join_eq_gap (h : isAbsolute path = false) (directory : String) :
    join directory path = directory ++ gap directory ++ path := by
  rw [join, h, if_neg (by simp), gap]
  split
  · rw [String.append_empty]
  · rfl

/-- Only the end of a directory decides. -/
theorem gap_append (s : String) {t : String} (hne : t ≠ "") : gap (s ++ t) = gap t := by
  have hne' : s ++ t ≠ "" := fun h => hne (String.append_eq_empty_iff.mp h).2
  obtain ⟨cs, c, hcs⟩ : ∃ cs c, t.toList = cs ++ [c] :=
    ⟨_, _, (List.dropLast_concat_getLast fun h => hne (String.toList_eq_nil_iff.mp h)).symm⟩
  simp [gap, String.isEmpty_iff, hne, hcs]

theorem gap_of_isName (h : IsName name) : gap name = "/" := by
  have hlast : name.toList.getLast? ≠ some '/' :=
    fun hs => h.slash_not_mem (List.mem_of_getLast? hs)
  simp [gap, String.isEmpty_iff, h.ne_empty, hlast]

/-- Seen from a directory first or last, a path is the same. -/
theorem join_assoc (directory : String) (h : isAbsolute path = false) (hne : path ≠ "")
    (hname : isAbsolute name = false) :
    join directory (join path name) = join (join directory path) name := by
  have hjoin : isAbsolute (join path name) = false := (isAbsolute_join hname hne).trans h
  rw [join_eq_gap hjoin, join_eq_gap hname, join_eq_gap hname, join_eq_gap h, gap_append _ hne]
  simp only [String.append_assoc]

/-! ### Normal paths -/

theorem IsName.isAbsolute_eq (h : IsName name) : isAbsolute name = false :=
  isAbsolute_of_not_mem h.slash_not_mem

/-- A path that is made normal leads through the same names. -/
theorem components_normalize (h : isAbsolute path = true) :
    components (normalize path) = components path := by
  by_cases hne : components path = []
  · rw [normalize, hne]
    rcases leadingSlashes_eq h with hs | hs <;> rw [hs] <;> rfl
  · exact (spells_normalize h hne).components_eq

theorem isAbsolute_normalize (h : isAbsolute path = true) : isAbsolute (normalize path) = true := by
  rw [normalize_of_isAbsolute h]
  rcases leadingSlashes_eq h with hs | hs <;> simp [isAbsolute, hs]

/-- Names with slashes between them start with no slash. -/
private theorem head?_intercalate {names : List String} (h : ∀ name ∈ names, IsName name) :
    ("/".intercalate names).toList.head? ≠ some '/' := by
  cases names with
  | nil => simp
  | cons first rest =>
    have hfirst := h first List.mem_cons_self
    obtain ⟨d, ds, hd⟩ := List.exists_cons_of_ne_nil
      fun hs => hfirst.ne_empty (String.toList_eq_nil_iff.mp hs)
    have hne : d ≠ '/' := fun he => hfirst.slash_not_mem (by simp [hd, he])
    by_cases hrest : rest = []
    · simpa [hrest, hd] using hne
    · simpa [String.intercalate_cons_of_ne_nil hrest, hd] using hne

/-- A path that is made normal starts with the slashes that it is to start with. -/
private theorem leadingSlashes_normalize (h : isAbsolute path = true) :
    leadingSlashes (normalize path) = leadingSlashes path := by
  rw [normalize_of_isAbsolute h]
  have hhead := head?_intercalate (isName_of_mem_components h)
  generalize "/".intercalate (components path) = names at hhead
  rcases leadingSlashes_eq h with hs | hs <;>
  · rw [hs, leadingSlashes, String.toList_append]
    cases hnames : names.toList with
    | nil => rfl
    | cons c cs =>
      have hc : c ≠ '/' := by simpa [hnames] using hhead
      simp [hc]

/-- A path is normal once it is made normal. -/
theorem normalize_normalize (h : isAbsolute path = true) :
    normalize (normalize path) = normalize path := by
  rw [normalize_of_isAbsolute (isAbsolute_normalize h), leadingSlashes_normalize h,
    components_normalize h, normalize_of_isAbsolute h]

/-- The slashes at the start of a path stay when a name follows it. -/
private theorem leadingSlashes_join (habs : isAbsolute path = true) (h : IsName name) :
    leadingSlashes (join path name) = leadingSlashes path := by
  obtain ⟨d, ds, hname⟩ := List.exists_cons_of_ne_nil
    fun hs => h.ne_empty (String.toList_eq_nil_iff.mp hs)
  have hd : d ≠ '/' := fun he => h.slash_not_mem (by simp [hname, he])
  have hjoin : (join path name).toList = path.toList ++ (gap path).toList ++ d :: ds := by
    rw [join_eq_gap h.isAbsolute_eq, String.toList_append, String.toList_append, hname]
  obtain ⟨cs, hpath⟩ : ∃ cs, path.toList = '/' :: cs := by
    rw [isAbsolute, beq_iff_eq] at habs
    exact List.head?_eq_some_iff.mp habs
  have hne := ne_empty_of_isAbsolute habs
  rw [leadingSlashes, leadingSlashes, hjoin, hpath]
  -- the first three characters decide
  rcases cs with _ | ⟨c, _ | ⟨c', cs⟩⟩
  · simp [gap, hpath, hd]
  · by_cases hc : c = '/' <;> simp [gap, String.isEmpty_iff, hne, hpath, hc, hd]
  · by_cases hc : c = '/' <;> by_cases hc' : c' = '/' <;> simp [hc, hc']

/-- A name that follows a path is its last component. -/
theorem components_join (habs : isAbsolute path = true) (h : IsName name) :
    components (join path name) = components path ++ [name] := by
  have hne := ne_empty_of_isAbsolute habs
  rw [components_of_isAbsolute ((isAbsolute_join h.isAbsolute_eq hne).trans habs),
    components_of_isAbsolute habs, through_join h.isAbsolute_eq,
    through_of_not_mem h.slash_not_mem, pushComponent_of_isName h, List.reverse_cons]

/-- A name follows a path that is made normal as it did before. -/
theorem normalize_join (habs : isAbsolute path = true) (h : IsName name) :
    normalize (join path name) = join (normalize path) name := by
  have hne := ne_empty_of_isAbsolute habs
  rw [normalize_of_isAbsolute ((isAbsolute_join h.isAbsolute_eq hne).trans habs),
    leadingSlashes_join habs h, components_join habs h, join_eq_gap h.isAbsolute_eq,
    normalize_of_isAbsolute habs]
  rcases List.eq_nil_or_concat (components path) with hnil | ⟨before, last, hlast⟩
  · have hgap : gap (leadingSlashes path) = "" := by
      rcases leadingSlashes_eq habs with hs | hs <;> rw [hs] <;> rfl
    rw [hnil, String.intercalate_nil, String.append_empty, hgap, List.nil_append,
      String.intercalate_singleton, String.append_empty]
  · have hname : IsName last := isName_of_mem_components habs last (by simp [hlast])
    have hends : ∃ s, "/".intercalate (components path) = s ++ last := by
      rw [hlast, List.concat_eq_append]
      by_cases hbefore : before = []
      · exact ⟨"", by rw [hbefore, List.nil_append, String.intercalate_singleton, String.empty_append]⟩
      · exact ⟨_, String.intercalate_append_of_ne_nil hbefore (by simp)⟩
    obtain ⟨s, hs⟩ := hends
    have hgap : gap (leadingSlashes path ++ "/".intercalate (components path)) = "/" := by
      rw [hs, ← String.append_assoc, gap_append _ hname.ne_empty, gap_of_isName hname]
    have hne : components path ≠ [] := by simp [hlast]
    rw [hgap, String.intercalate_append_of_ne_nil hne (by simp), String.intercalate_singleton]
    simp only [String.append_assoc]

/-! ### Absolute paths -/

/-- The components of a path that is made absolute are what it leads through. -/
theorem components_absolute (hcwd : isAbsolute env.cwd = true) (path : String) :
    components (absolute env path) = (through (start env path) path).reverse := by
  obtain ⟨full, hfull, habsolute, hthrough⟩ := exists_absolute_eq hcwd path
  rw [habsolute, components_normalize hfull, components_of_isAbsolute hfull, hthrough]

/-- A path that is absolute and normal stays as it is. -/
theorem absolute_absolute (hcwd : isAbsolute env.cwd = true) (path : String) :
    absolute env (absolute env path) = absolute env path := by
  obtain ⟨full, hfull, habsolute, -⟩ := exists_absolute_eq hcwd path
  rw [habsolute, absolute, if_pos (isAbsolute_normalize hfull), normalize_normalize hfull]

/-- A name follows a path that is made absolute as it did before. -/
theorem absolute_join (hcwd : isAbsolute env.cwd = true) (hne : path ≠ "") (h : IsName name) :
    absolute env (join path name) = join (absolute env path) name := by
  have hjoin := isAbsolute_join h.isAbsolute_eq hne
  have hcwd' := ne_empty_of_isAbsolute hcwd
  rw [absolute, absolute, hjoin]
  split
  · next habs => exact normalize_join habs h
  · next habs =>
    rw [Bool.not_eq_true] at habs
    rw [join_assoc _ habs hne h.isAbsolute_eq]
    exact normalize_join ((isAbsolute_join habs hcwd').trans hcwd) h

end Path

end Groundplan
