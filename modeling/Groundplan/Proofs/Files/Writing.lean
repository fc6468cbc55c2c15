import Groundplan.Files.TextFile
import Groundplan.Proofs.Files.Paths
import Groundplan.Proofs.Sequencing

/-!
# Writing files

Writing a file makes the directories that are missing before it and puts the file in its place;
nothing else is changed, and no directory gives way to a file. So a path that was once followed
leads to the same place ever after, and what was written is read there until that place is written
again.
-/

namespace Groundplan.FileTree

variable {t t' t'' : FileTree} {env : Environment} {path : String} {place : List String}

/-! ### Making directories -/

/-- A place stays as it is, or a directory is made in it where nothing was. -/
def Keeps (t t' : FileTree) (place : List String) : Prop :=
  t'.find? place = t.find? place ∨
    t.find? place = none ∧ t'.find? place = some .directory

namespace Keeps

theorem refl (t : FileTree) (place : List String) : Keeps t t place := .inl rfl

theorem trans (h : Keeps t t' place) (h' : Keeps t' t'' place) : Keeps t t'' place := by
  rcases h with h | ⟨hnone, hmade⟩
  · rcases h' with h' | ⟨hnone, hmade⟩
    · exact .inl (h'.trans h)
    · exact .inr ⟨h ▸ hnone, hmade⟩
  · rcases h' with h' | ⟨hnone', -⟩
    · exact .inr ⟨hnone, h'.trans hmade⟩
    · rw [hmade] at hnone'
      cases hnone'

/-- What stands in a place stays there. -/
theorem find?_eq (h : Keeps t t' place) {e : FileEntry} (he : t.find? place = some e) :
    t'.find? place = some e := by
  rcases h with h | ⟨hnone, -⟩
  · rw [h, he]
  · rw [he] at hnone
    cases hnone

/-- No directory comes to be where a file is. -/
theorem ne_directory (h : Keeps t t' place) (hne : t'.find? place ≠ some .directory) :
    t.find? place ≠ some .directory :=
  fun hd => hne (h.find?_eq hd)

end Keeps

/-- A directory is made where nothing is. -/
theorem makeDirectory_eq_ok (h : t.makeDirectory env path = .ok t') :
    ∃ place slashed, t.follow env path = .ok (place, slashed) ∧ t.find? place = none ∧
      t' = t.put place .directory := by
  unfold makeDirectory at h
  obtain ⟨⟨place, slashed⟩, hfollow, h⟩ := bind_eq_ok.mp h
  dsimp only at h
  split at h
  · cases h
  · next hfind =>
    cases h
    exact ⟨place, slashed, hfollow, hfind, rfl⟩

section Making

variable {P : FileTree → Prop}
  (hput : ∀ {t : FileTree} {path : String} {place : List String} {slashed : Bool},
    t.follow env path = .ok (place, slashed) → t.find? place = none → P t →
      P (t.put place .directory))
include hput

private theorem makeLast_induction (h : P t) (path : String) : P (t.makeLast env path).1 := by
  unfold makeLast
  split
  · next hmade =>
    obtain ⟨place, slashed, hfollow, hfind, rfl⟩ := makeDirectory_eq_ok hmade
    exact hput hfollow hfind h
  · exact h
  · split <;> exact h

private theorem makeDirectories_induction (fuel : Nat) (h : P t) (path : String) :
    P (makeDirectories env fuel t path).1 := by
  induction fuel generalizing path with
  | zero => exact makeLast_induction hput h path
  | succ fuel ih =>
    rw [makeDirectories]
    dsimp only
    split
    · exact makeLast_induction hput h path
    · have hhead := ih (lastStep path).1
      split
      · next hmade =>
        rw [hmade] at hhead
        split
        · exact hhead
        · exact makeLast_induction hput hhead path
      · next hmade =>
        rw [hmade] at hhead
        split
        · exact hhead
        · exact makeLast_induction hput hhead path
      · exact hhead

/-- What making one directory preserves, making all that are missing does. -/
theorem ensureDirectory_induction (h : P t) (path : String) : P (t.ensureDirectory env path).1 :=
  makeDirectories_induction hput _ h path

end Making

/-- Making a directory and all before it keeps every place. -/
theorem keeps_ensureDirectory (t : FileTree) (env : Environment) (path : String)
    (place : List String) : Keeps t (t.ensureDirectory env path).1 place := by
  refine ensureDirectory_induction (P := (Keeps t · place)) (fun {t' _ made _} _ hfind hkeeps => ?_)
    (.refl t place) path
  have hne : made ≠ [] := by
    rintro rfl
    cases hfind
  refine hkeeps.trans ?_
  by_cases hplace : place = made
  · rw [hplace]
    exact .inr ⟨hfind, find?_put t' hne _⟩
  · exact .inl (find?_put_of_ne t' hplace _)

/-! ### Following paths -/

/-- Every directory is still there. -/
def KeepsDirectories (t t' : FileTree) : Prop :=
  ∀ place, t.find? place = some .directory → t'.find? place = some .directory

/-- The way through directories stays. -/
theorem KeepsDirectories.descend_eq (h : KeepsDirectories t t') {names place' : List String}
    (hd : t.descend place names = .ok place') : t'.descend place names = .ok place' := by
  fun_induction t.descend place names with
  | case1 => exact hd
  | case2 _ _ _ hdot ih => rw [descend, if_pos hdot, ih hd]
  | case3 _ _ _ hdot hdots ih => rw [descend, if_neg hdot, if_pos hdots, ih hd]
  | case4 => cases hd
  | case5 => cases hd
  | case6 => cases hd
  | case7 _ _ _ hdot hdots hlong hfind ih =>
    rw [descend, if_neg hdot, if_neg hdots, if_neg hlong, h _ hfind]
    exact ih hd

/-- Names lead down by themselves. -/
theorem descend_eq_append {names place' : List String}
    (hnames : ∀ name ∈ names, Path.IsName name) (hd : t.descend place names = .ok place') :
    place' = place ++ names := by
  induction names generalizing place with
  | nil =>
    cases hd
    rw [List.append_nil]
  | cons name names ih =>
    obtain ⟨hname, hnames⟩ := List.forall_mem_cons.mp hnames
    rw [descend, if_neg (by simp [hname.ne_empty, hname.ne_dot]),
      if_neg (by simp [hname.ne_dots])] at hd
    split at hd
    · cases hd
    · split at hd
      · cases hd
      · cases hd
      · rw [ih hnames hd, List.append_assoc, List.singleton_append]

private theorem descend_replicate (place : List String) (n : Nat) (names : List String) :
    t.descend place (List.replicate n "" ++ names) = t.descend place names := by
  induction n with
  | zero => rfl
  | succ n ih =>
    rw [List.replicate_succ, List.cons_append, descend, if_pos (by simp), ih]

/-- The directory before the last component of a path stays as it is while directories stay. -/
theorem KeepsDirectories.approach_eq (h : KeepsDirectories t t') {cwd : String}
    {r : List String × Option String × Bool} (ha : t.approach cwd path = .ok r) :
    t'.approach cwd path = .ok r := by
  unfold approach at ha ⊢
  split
  · next hempty =>
    rw [if_pos hempty] at ha
    cases ha
  · next hempty =>
    rw [if_neg hempty] at ha
    split
    · next hlong =>
      rw [if_pos hlong] at ha
      cases ha
    · next hlong =>
      rw [if_neg hlong] at ha
      dsimp only at ha ⊢
      split
      · next hlast =>
        rw [hlast] at ha
        exact ha
      · next last hlast =>
        rw [hlast] at ha
        obtain ⟨place, hplace, hr⟩ := map_eq_ok.mp ha
        rw [h.descend_eq hplace, ← hr]
        rfl

/-- A path that can be followed is located. -/
theorem follow_eq_ok {r : List String × Bool} :
    t.follow env path = .ok r ↔ '\x00' ∉ path.toList ∧ t.locate env.cwd path = .ok r := by
  unfold follow
  split
  · next hnull =>
    rw [String.contains_char_eq, decide_eq_true_eq] at hnull
    simp [hnull]
  · next hnull =>
    rw [String.contains_char_eq, decide_eq_true_eq] at hnull
    rw [mapError_eq_ok]
    exact (and_iff_right hnull).symm

/-- Where a path leads stays as it is while directories stay. -/
theorem KeepsDirectories.follow_eq (h : KeepsDirectories t t') {r : List String × Bool}
    (hf : t.follow env path = .ok r) : t'.follow env path = .ok r := by
  obtain ⟨hnull, hlocate⟩ := follow_eq_ok.mp hf
  rw [locate] at hlocate
  obtain ⟨found, hfound, hrest⟩ := bind_eq_ok.mp hlocate
  refine follow_eq_ok.mpr ⟨hnull, ?_⟩
  rw [locate, h.approach_eq hfound]
  exact hrest

/-- The directory before the last of the names that a path spells is what the others lead to. -/
theorem approach_of_spells {before : List String} {last : String}
    (hs : Path.Spells path (before ++ [last])) (t : FileTree) (cwd : String) :
    t.approach cwd path =
      if path.utf8ByteSize ≥ pathLimit then .error .nameTooLong
      else (t.descend [] before).map fun place => (place, some last, false) := by
  obtain ⟨k, hsplit⟩ := hs.split_eq
  have hlast : Path.IsName last := hs.isName last (by simp)
  have hkept : ((List.replicate (k + 1) "" ++ (before ++ [last])).reverse.dropWhile
      String.isEmpty).reverse = List.replicate (k + 1) "" ++ (before ++ [last]) := by
    rw [List.reverse_append, List.reverse_append, List.reverse_singleton, List.singleton_append,
      List.cons_append, List.dropWhile_cons_of_neg (by simp [hlast.ne_empty])]
    simp
  have hne : path ≠ "" := Path.ne_empty_of_isAbsolute hs.isAbsolute
  rw [approach, if_neg (by simpa [String.isEmpty_iff] using hne)]
  dsimp only
  rw [hsplit, hkept, ← List.append_assoc, List.getLast?_concat, List.dropLast_concat,
    if_pos hs.isAbsolute, descend_replicate]
  simp

/-- The way to the last of the names that a path spells leads through directories. -/
theorem descend_of_spells {before : List String} {last : String}
    (hs : Path.Spells path (before ++ [last])) {r : List String × Bool}
    (hf : t.follow env path = .ok r) :
    t.descend [] before = .ok before ∧ r = (before ++ [last], false) := by
  have hlast : Path.IsName last := hs.isName last (by simp)
  have hbefore : ∀ name ∈ before, Path.IsName name := fun name hname =>
    hs.isName name (List.mem_append_left _ hname)
  obtain ⟨-, hlocate⟩ := follow_eq_ok.mp hf
  rw [locate, approach_of_spells hs] at hlocate
  obtain ⟨found, happroach, hrest⟩ := bind_eq_ok.mp hlocate
  split at happroach
  · cases happroach
  obtain ⟨place, hplace, rfl⟩ := map_eq_ok.mp happroach
  obtain rfl := descend_eq_append hbefore hplace
  dsimp only at hrest
  rw [if_neg (by simp [hlast.ne_dot]), if_neg (by simp [hlast.ne_dots])] at hrest
  split at hrest
  · cases hrest
  · cases hrest
    exact ⟨hplace, by simp⟩

/-- A path that spells names leads to them. -/
theorem follow_of_spells {names : List String} (hs : Path.Spells path names)
    {r : List String × Bool} (hf : t.follow env path = .ok r) : r = (names, false) := by
  obtain ⟨before, last, rfl⟩ : ∃ before last, names = before ++ [last] :=
    ⟨_, _, (List.dropLast_concat_getLast hs.ne_nil).symm⟩
  exact (descend_of_spells hs hf).2

/-! ### Writing -/

/-- A file was written to where a path leads. No directory was there, and every other place is
kept. -/
structure Wrote (t t' : FileTree) (env : Environment) (path : String) (bytes : List UInt8) :
    Prop where
  follow_eq : t'.follow env path = .ok (Path.components path, false)
  find?_eq : t'.find? (Path.components path) = some (.file bytes)
  free : t.find? (Path.components path) ≠ some .directory
  keeps : ∀ place ≠ Path.components path, Keeps t t' place

/-- A file may be written where a path leads and no directory is. -/
theorem writable_eq_ok (h : t.writable env path = .ok place) :
    ∃ slashed, t.follow env path = .ok (place, slashed) ∧ t.find? place ≠ some .directory := by
  unfold writable at h
  dsimp only at h
  split at h
  · cases h
  · obtain ⟨⟨found, slashed⟩, hfollow, hfound⟩ := bind_eq_ok.mp h
    dsimp only at hfound
    split at hfound
    · cases hfound
    · next hfind =>
      cases hfound
      exact ⟨slashed, hfollow, hfind⟩

/-- Where a path leads to a directory. -/
theorem isDirectory_iff : t.isDirectory env path = true ↔
    ∃ place slashed, t.follow env path = .ok (place, slashed) ∧ t.find? place = some .directory := by
  rw [isDirectory, beq_iff_eq, lookup]
  cases hfollow : t.follow env path with
  | error e => simp
  | ok r =>
    obtain ⟨place, slashed⟩ := r
    cases hfind : t.find? place with
    | none => simp [hfind]
    | some e =>
      cases e with
      | directory => simp [hfind]
      | file bytes => cases slashed <;> simp [hfind]

/-- A path whose bytes can be read leads somewhere. -/
theorem pathExists_of_readBytes {bytes : List UInt8} (h : t.readBytes env path = .ok bytes) :
    t.pathExists env path = true := by
  obtain ⟨⟨place, slashed⟩, hfollow, hread⟩ := bind_eq_ok.mp h
  rw [pathExists, lookup, hfollow]
  dsimp only at hread ⊢
  cases hfind : t.find? place with
  | none =>
    rw [hfind] at hread
    cases hread
  | some e =>
    rw [hfind] at hread
    cases e with
    | directory => rfl
    | file bytes =>
      cases slashed with
      | true => cases hread
      | false => rfl

/-- A path that leads to a directory does so while directories stay. -/
theorem KeepsDirectories.isDirectory (h : KeepsDirectories t t')
    (hd : t.isDirectory env path = true) : t'.isDirectory env path = true := by
  obtain ⟨place, slashed, hfollow, hfind⟩ := isDirectory_iff.mp hd
  exact isDirectory_iff.mpr ⟨place, slashed, h.follow_eq hfollow, h place hfind⟩

/-- A directory is not made twice. -/
theorem makeLast_of_isDirectory (hd : t.isDirectory env path = true) :
    t.makeLast env path = (t, .ok ()) := by
  obtain ⟨place, slashed, hfollow, hfind⟩ := isDirectory_iff.mp hd
  have hmade : t.makeDirectory env path = .error (.refused .alreadyExists path) := by
    rw [makeDirectory, hfollow]
    simp only [bind, Except.bind, hfind]
    rfl
  rw [makeLast, hmade]
  dsimp only
  rw [if_pos hd]

/-- Nothing is made where a directory and the one before it are there. -/
theorem ensureDirectory_of_isDirectory (habove : t.isDirectory env (lastStep path).1 = true)
    (hd : t.isDirectory env path = true) : t.ensureDirectory env path = (t, .ok ()) := by
  have hexists : t.pathExists env (lastStep path).1 = true := by
    rw [isDirectory, beq_iff_eq] at habove
    rw [pathExists, habove]
    rfl
  rw [ensureDirectory]
  cases path.length with
  | zero => exact makeLast_of_isDirectory hd
  | succ fuel =>
    rw [makeDirectories]
    dsimp only
    split
    · exact makeLast_of_isDirectory hd
    · next h => exact absurd (by rw [hexists, Bool.or_true]) h

/-- The directories before a path are there, and the path leads to where no directory is. -/
structure Receives (t : FileTree) (env : Environment) (path : String) : Prop where
  above : t.isDirectory env (lastStep (Path.directory (Path.absolute env path))).1 = true
  directory : t.isDirectory env (Path.directory (Path.absolute env path)) = true
  slashed : t.isSlashed env path = false
  free : ∃ place slashed, t.follow env path = .ok (place, slashed) ∧ t.find? place ≠ some .directory

/-- Bytes are put where a path that receives them leads, with no directory to be made before. -/
theorem Receives.writeBytes_eq (h : t.Receives env path) (bytes : List UInt8) :
    ∃ place, t.find? place ≠ some .directory ∧
      t.ensureDirectory env (Path.directory (Path.absolute env path)) = (t, .ok ()) ∧
      t.writeBytes env path bytes = .ok (t.put place (.file bytes)) := by
  obtain ⟨place, slashed, hfollow, hfree⟩ := h.free
  have hwritable : t.writable env path = .ok place := by
    unfold writable
    dsimp only
    split
    · next hs => simp [h.slashed] at hs
    · refine bind_eq_ok.mpr ⟨_, hfollow, ?_⟩
      dsimp only
      split
      · next hd => exact absurd hd hfree
      · rfl
  refine ⟨place, hfree, ensureDirectory_of_isDirectory h.above h.directory, ?_⟩
  rw [writeBytes, hwritable]
  rfl

/-- A text is put where a path that receives it leads. -/
theorem Receives.writeText_eq (h : t.Receives env path) (content : String) :
    ∃ place, t.find? place ≠ some .directory ∧
      t.writeText env path content = (t.put place (.file (Text.utf8 content)), .ok ()) := by
  obtain ⟨place, hfree, hmade, hwrite⟩ := h.writeBytes_eq (Text.utf8 content)
  refine ⟨place, hfree, ?_⟩
  unfold writeText
  dsimp only
  generalize Path.directory (Path.absolute env path) = parent at hmade ⊢
  rw [hmade]
  dsimp only
  rw [hwrite]

/-- A path receives a text after a file was put anywhere. -/
theorem Receives.put (h : t.Receives env path) (hfree : t.find? place ≠ some .directory)
    (bytes : List UInt8) : (t.put place (.file bytes)).Receives env path := by
  have hkeeps : KeepsDirectories t (t.put place (.file bytes)) := by
    intro other hd
    have hne : other ≠ place := fun he => hfree (he ▸ hd)
    rw [find?_put_of_ne _ hne, hd]
  obtain ⟨target, slashed, hfollow, hopen⟩ := h.free
  obtain ⟨-, hlocate⟩ := follow_eq_ok.mp hfollow
  rw [locate] at hlocate
  obtain ⟨found, hfound, -⟩ := bind_eq_ok.mp hlocate
  refine ⟨hkeeps.isDirectory h.above, hkeeps.isDirectory h.directory, ?_, target, slashed,
    hkeeps.follow_eq hfollow, ?_⟩
  · have hslashed := h.slashed
    rw [isSlashed, hfound] at hslashed
    rw [isSlashed, hkeeps.approach_eq hfound]
    exact hslashed
  · have hne : place ≠ [] := by
      rintro rfl
      exact hfree rfl
    by_cases he : target = place
    · rw [he, find?_put _ hne]
      simp
    · rwa [find?_put_of_ne _ he]

/-- A path receives a text where the directory before it, and the one before that, are found, and
nothing is found at its end. -/
theorem receives_of_locate {directory above : String}
    (hnull : '\x00' ∉ path.toList ∧ '\x00' ∉ directory.toList ∧ '\x00' ∉ above.toList)
    (hpaths : Path.directory (Path.absolute env path) = directory ∧ (lastStep directory).1 = above)
    (habove : (t.locate env.cwd above).toOption.bind (fun r => t.find? r.1) = some .directory)
    (hdirectory : (t.locate env.cwd directory).toOption.bind (fun r => t.find? r.1) = some .directory)
    (hfree : (t.locate env.cwd path).toOption.map (fun r => t.find? r.1) = some none)
    (hslashed : t.isSlashed env path = false) : t.Receives env path := by
  obtain ⟨rfl, rfl⟩ := hpaths
  have hfound {path : String} (hnull : '\x00' ∉ path.toList)
      (h : (t.locate env.cwd path).toOption.bind (fun r => t.find? r.1) = some .directory) :
      t.isDirectory env path = true := by
    obtain ⟨r, hlocate, hfind⟩ := Option.bind_eq_some_iff.mp h
    exact isDirectory_iff.mpr
      ⟨r.1, r.2, follow_eq_ok.mpr ⟨hnull, toOption_eq_some.mp hlocate⟩, hfind⟩
  obtain ⟨r, hlocate, hfind⟩ := Option.map_eq_some_iff.mp hfree
  exact ⟨hfound hnull.2.2 habove, hfound hnull.2.1 hdirectory, hslashed, r.1, r.2,
    follow_eq_ok.mpr ⟨hnull.1, toOption_eq_some.mp hlocate⟩, by simp [hfind]⟩

/-- Bytes that are written are put where the path leads. -/
theorem writeBytes_eq_ok {bytes : List UInt8} (h : t.writeBytes env path bytes = .ok t') :
    ∃ place slashed, t.follow env path = .ok (place, slashed) ∧ t.find? place ≠ some .directory ∧
      t' = t.put place (.file bytes) := by
  rw [writeBytes] at h
  obtain ⟨place, hplace, hput⟩ := bind_eq_ok.mp h
  obtain ⟨slashed, hfollow, hfree⟩ := writable_eq_ok hplace
  exact ⟨place, slashed, hfollow, hfree, (Except.ok.inj hput).symm⟩

/-- A text that is written is written as its bytes once the directories before it are there. -/
theorem writeBytes_of_writeText {content : String}
    (h : t.writeText env path content = (t', .ok ())) :
    (t.ensureDirectory env (Path.directory (Path.absolute env path))).1.writeBytes env path
      (Text.utf8 content) = .ok t' := by
  unfold writeText at h
  cases hmade : t.ensureDirectory env (Path.directory (Path.absolute env path)) with
  | mk made result =>
    simp only [hmade] at h
    cases result with
    | error e => cases h
    | ok =>
      dsimp only at h
      split at h
      · next hwrite =>
        cases h
        exact hwrite
      · cases h

/-- A text that is written is put where the path leads once the directories before it are there. -/
theorem writeText_eq_ok {content : String} (h : t.writeText env path content = (t', .ok ())) :
    ∃ made place slashed,
      made = (t.ensureDirectory env (Path.directory (Path.absolute env path))).1 ∧
      made.follow env path = .ok (place, slashed) ∧ made.find? place ≠ some .directory ∧
      t' = made.put place (.file (Text.utf8 content)) := by
  obtain ⟨place, slashed, hput⟩ := writeBytes_eq_ok (writeBytes_of_writeText h)
  exact ⟨_, place, slashed, rfl, hput⟩

/-- Slashes lead to the root. -/
private theorem locate_slashes {cwd slashes : String} (h : slashes = "/" ∨ slashes = "//") :
    t.locate cwd slashes = .ok ([], true) := by
  have happroach : t.approach cwd slashes = .ok ([], none, true) := by
    have hsplit : Text.split '/' "/" = ["", ""] ∧ Text.split '/' "//" = ["", "", ""] := by
      decide +kernel
    have hshort : ¬ "/".utf8ByteSize ≥ pathLimit ∧ ¬ "//".utf8ByteSize ≥ pathLimit := by decide
    rcases h with rfl | rfl
    · simp [approach, hsplit.1, hshort.1]
    · simp [approach, hsplit.2, hshort.2]
  rw [locate, happroach]
  rfl

/-- A file is written only where names lead to. -/
theorem exists_spells_of_writeBytes (hcwd : Path.isAbsolute env.cwd = true) {bytes : List UInt8}
    (h : t.writeBytes env (Path.absolute env path) bytes = .ok t') :
    ∃ names, Path.Spells (Path.absolute env path) names := by
  by_cases hsomewhere : Path.through (Path.start env path) path = []
  · obtain ⟨full, hfull, habsolute, hthrough⟩ := Path.exists_absolute_eq hcwd path
    have hslashes : Path.absolute env path = Path.leadingSlashes full := by
      rw [habsolute, Path.normalize_of_isAbsolute hfull, Path.components_of_isAbsolute hfull, hthrough,
        hsomewhere]
      simp
    obtain ⟨place, slashed, hfollow, hfree, -⟩ := writeBytes_eq_ok h
    obtain ⟨-, hlocate⟩ := follow_eq_ok.mp hfollow
    rw [hslashes, locate_slashes (Path.leadingSlashes_eq hfull)] at hlocate
    cases hlocate
    exact absurd rfl hfree
  · exact ⟨_, Path.spells_absolute hcwd hsomewhere⟩

/-- Writing bytes to a path that spells names, once some directories were made, does just that. -/
theorem wrote_of_writeBytes {names : List String} {bytes : List UInt8} (hs : Path.Spells path names)
    {directory : String} (h : (t.ensureDirectory env directory).1.writeBytes env path bytes = .ok t') :
    Wrote t t' env path bytes := by
  have hkeeps := keeps_ensureDirectory t env directory
  obtain ⟨place, slashed, hfollow, hfree, rfl⟩ := writeBytes_eq_ok h
  generalize (t.ensureDirectory env directory).1 = made at hkeeps hfollow hfree ⊢
  obtain ⟨rfl, rfl⟩ := Prod.mk.inj (follow_of_spells hs hfollow)
  rw [← hs.components_eq] at hfollow hfree ⊢
  have hnames : Path.components path ≠ [] := hs.components_eq ▸ hs.ne_nil
  refine ⟨KeepsDirectories.follow_eq (fun place hd => ?_) hfollow, find?_put _ hnames _,
    (hkeeps _).ne_directory hfree, fun place hne => ?_⟩
  · have hplace : place ≠ Path.components path := fun he => hfree (he ▸ hd)
    rw [find?_put_of_ne _ hplace, hd]
  · exact (hkeeps place).trans (.inl (find?_put_of_ne _ hne _))

/-- Writing a text to a path that spells names does just that. -/
theorem wrote_of_writeText {names : List String} {content : String} (hs : Path.Spells path names)
    (h : t.writeText env path content = (t', .ok ())) :
    Wrote t t' env path (Text.utf8 content) :=
  wrote_of_writeBytes hs (writeBytes_of_writeText h)

namespace Wrote

variable {bytes : List UInt8} (h : Wrote t t' env path bytes)
include h

theorem keepsDirectories : KeepsDirectories t t' := by
  intro place hd
  have hne : place ≠ Path.components path := fun he => h.free (he ▸ hd)
  exact (h.keeps place hne).find?_eq hd

/-- What was written is read while its place and all directories are kept. -/
theorem readBytes_eq (hd : KeepsDirectories t' t'') (hk : Keeps t' t'' (Path.components path)) :
    t''.readBytes env path = .ok bytes := by
  rw [readBytes, hd.follow_eq h.follow_eq]
  simp only [bind, Except.bind, hk.find?_eq h.find?_eq]
  rfl

end Wrote

end Groundplan.FileTree
