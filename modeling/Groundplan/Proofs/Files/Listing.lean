import Groundplan.Proofs.Files.Following
import Groundplan.Proofs.Files.Housing

/-!
# Listing what was written

A listing looks below the output directory as it is given, while writing takes the directory without
blanks around it, or the default one for a blank one, and makes its path absolute first. So a
document is listed just if the path that the listing looks at can be followed and leads to where the
document is. That is so where nothing is trimmed, no directory is left by two dots, and no path is
too long.
-/

namespace Groundplan.Output

variable {env : Environment} {outdir name : String} {t t' t'' : FileTree}

/-! ### What is listed -/

/-- Where a listing looks for the document of a stack. -/
def listedPath (outdir name : String) : String :=
  Path.join (Path.join (Path.join outdir stacksName) name) fileName

/-- The path of a document is where a listing of the directory as it is used looks for it. -/
theorem documentPath_eq (outdir name : String) :
    documentPath outdir name = listedPath (baseDirectory outdir) name := rfl

/-- Without blanks around it an output directory is used as it is. -/
theorem baseDirectory_of_strip_eq (h : Text.strip outdir = outdir) (hne : outdir ≠ "") :
    baseDirectory outdir = outdir := by
  rw [baseDirectory, h, if_neg (by simpa [String.isEmpty_iff] using hne)]

theorem components_listedPath (hcwd : Path.isAbsolute env.cwd = true) (hname : Path.IsName name)
    (outdir : String) : Path.components (Path.absolute env (listedPath outdir name)) =
      Path.components (Path.absolute env outdir) ++ [stacksName, name, fileName] := by
  rw [listedPath, Path.components_absolute_join hcwd isName_fileName,
    Path.components_absolute_join hcwd hname, Path.components_absolute_join hcwd isName_stacksName]
  simp

/-- A document is written to where a listing of the directory as it is used looks for it. -/
theorem components_filePath (hcwd : Path.isAbsolute env.cwd = true) (hname : Path.IsName name) :
    Path.components (filePath env outdir name) =
      Path.components (Path.absolute env (baseDirectory outdir)) ++ [stacksName, name, fileName] :=
  components_listedPath hcwd hname _

/-- A document that a listing looks for is below a directory that lists its name. -/
theorem lists_of_isFile (hname : Path.IsName name)
    (h : t.isFile env (listedPath outdir name) = true) :
    t.isDirectory env (Path.join outdir stacksName) = true ∧
      name ∈ t.namesAt env (Path.join outdir stacksName) := by
  obtain ⟨bytes, hread⟩ := FileTree.isFile_iff.mp h
  obtain ⟨r, hfollow, -⟩ := bind_eq_ok.mp hread
  obtain ⟨hlegal, -, directory, hreach, -⟩ := (FileTree.follow_join_eq_ok isName_fileName).mp hfollow
  obtain ⟨-, above, habove, hwithin, rfl⟩ := (FileTree.reach_join_eq_ok hname).mp hreach
  obtain ⟨hshort, base, hbase, hfind, rfl⟩ :=
    (FileTree.reach_join_eq_ok isName_stacksName).mp habove
  have hfound : t.follow env (Path.join outdir stacksName) = .ok (base ++ [stacksName], false) :=
    (FileTree.follow_join_eq_ok isName_stacksName).mpr
      ⟨(hlegal.of_join isName_fileName).of_join hname, hshort, base, hbase, rfl⟩
  refine ⟨FileTree.isDirectory_iff.mpr ⟨_, _, hfound, hfind⟩, ?_⟩
  rw [FileTree.namesAt, hfound]
  refine FileTree.mem_namesIn_of_find? ?_
  rw [hwithin]
  simp

/-- Just those names are listed under which there is a document. -/
theorem mem_stackNames_iff (h : t.Proper) : name ∈ stackNames t env outdir ↔
    Path.IsName name ∧ t.isFile env (listedPath outdir name) = true := by
  unfold stackNames
  dsimp only
  constructor
  · intro hmem
    split at hmem
    · rw [List.mem_mergeSort, List.mem_filter] at hmem
      refine ⟨?_, hmem.2⟩
      have hlisted := hmem.1
      unfold FileTree.namesAt at hlisted
      split at hlisted
      · exact h.isName_of_mem_namesIn hlisted
      · cases hlisted
    · cases hmem
  · rintro ⟨hname, hfile⟩
    obtain ⟨hdirectory, hlisted⟩ := lists_of_isFile hname hfile
    rw [if_pos hdirectory, List.mem_mergeSort, List.mem_filter]
    exact ⟨hlisted, hfile⟩

/-- A listing ascends, and lists nothing twice. -/
theorem pairwise_stackNames (h : t.Proper) (env : Environment) (outdir : String) :
    (stackNames t env outdir).Pairwise (· < ·) := by
  unfold stackNames
  dsimp only
  split
  · have hnames : (t.namesAt env (Path.join outdir stacksName)).Nodup := by
      unfold FileTree.namesAt
      split
      · exact h.nodup_namesIn _
      · exact List.nodup_nil
    generalize hfound : (t.namesAt env (Path.join outdir stacksName)).filter _ = found
    have hnodup : (found.mergeSort fun a b => a ≤ b).Nodup :=
      (List.mergeSort_perm found _).nodup_iff.mpr (hfound ▸ hnames.filter _)
    have hsorted : (found.mergeSort fun a b => a ≤ b).Pairwise
        fun a b => decide (a ≤ b) = true := List.pairwise_mergeSort
      (fun _ _ _ hab hbc => by simpa using String.le_trans (by simpa using hab) (by simpa using hbc))
      (fun a b => by simpa using String.le_total a b) found
    exact (hsorted.and hnodup).imp fun h => Std.lt_of_le_of_ne (by simpa using h.1) h.2
  · exact .nil

/-! ### What was written -/

/-- Documents with names and texts were written one after the other. -/
inductive StoresAll (env : Environment) (outdir : String) :
    FileTree → List (String × String) → FileTree → Prop
  | nil (t : FileTree) : StoresAll env outdir t [] t
  | cons {t t' t'' : FileTree} {d : String × String} {docs : List (String × String)} {path : String}
      (hdoc : Stores env outdir d.1 d.2 t t' path) (hdocs : StoresAll env outdir t' docs t'') :
      StoresAll env outdir t (d :: docs) t''

/-- The documents are where they were written, and nothing else is changed but for directories that
were missing. -/
structure Stored (t t' : FileTree) (env : Environment) (outdir : String)
    (docs : List (String × String)) : Prop where
  proper : t.Proper → t'.Proper
  keepsDirectories : FileTree.KeepsDirectories t t'
  keeps : ∀ other, (∀ d ∈ docs, other ≠ Path.components (filePath env outdir d.1)) →
    FileTree.Keeps t t' other
  follow_eq : ∀ d ∈ docs, t'.follow env (filePath env outdir d.1) =
    .ok (Path.components (filePath env outdir d.1), false)
  find?_eq : ∀ d ∈ docs, t'.find? (Path.components (filePath env outdir d.1)) =
    some (.file (Text.utf8 (d.2 ++ "\n")))

/-- Documents that were written under different names are all there in the end. -/
theorem StoresAll.stored {docs : List (String × String)} (hcwd : Path.isAbsolute env.cwd = true)
    (hnames : ∀ d ∈ docs, Path.IsName d.1) (hnodup : (docs.map (·.1)).Nodup)
    (h : StoresAll env outdir t docs t') : Stored t t' env outdir docs := by
  induction h with
  | nil t => exact ⟨id, fun _ h => h, fun _ _ => .refl .., by simp, by simp⟩
  | @cons t t₁ t' d docs path hdoc hdocs ih =>
    obtain ⟨hname, hrest⟩ := List.forall_mem_cons.mp hnames
    rw [List.map_cons, List.nodup_cons] at hnodup
    have hstored := ih hrest hnodup.2
    have hwrote := hdoc.wrote hcwd hname.slash_not_mem
    have hkept : FileTree.Keeps t₁ t' (Path.components (filePath env outdir d.1)) := by
      refine hstored.keeps _ fun other hother heq => hnodup.1 ?_
      rw [components_filePath hcwd hname, components_filePath hcwd (hrest other hother)] at heq
      have hsame : d.1 = other.1 := by simpa using heq
      exact hsame ▸ List.mem_map_of_mem hother
    refine ⟨fun hp => hstored.proper (hp.writeText hcwd hdoc.writeText_eq.2),
      fun place hd => hstored.keepsDirectories _ (hwrote.keepsDirectories _ hd),
      fun other hother => ?_, ?_, ?_⟩
    · obtain ⟨hfirst, hothers⟩ := List.forall_mem_cons.mp hother
      exact (hwrote.keeps other hfirst).trans (hstored.keeps other hothers)
    · exact List.forall_mem_cons.mpr
        ⟨hstored.keepsDirectories.follow_eq hwrote.follow_eq, hstored.follow_eq⟩
    · exact List.forall_mem_cons.mpr ⟨hkept.find?_eq hwrote.find?_eq, hstored.find?_eq⟩

/-- A path for documents leaves no directory by two dots, and none of the documents' paths is too
long. -/
structure Straight (outdir : String) (docs : List (String × String)) : Prop where
  dots_not_mem : ".." ∉ Text.split '/' (baseDirectory outdir)
  size_lt : ∀ d ∈ docs, (documentPath outdir d.1).utf8ByteSize < FileTree.pathLimit

namespace Stored

variable {docs : List (String × String)} (hcwd : Path.isAbsolute env.cwd = true)
  (h : Stored t t' env outdir docs)
include hcwd h

/-- Just those documents are read that are found where they were written. -/
theorem readBytes_eq_ok_iff {d : String × String} (hd : d ∈ docs) :
    t'.readBytes env (documentPath outdir d.1) = .ok (Text.utf8 (d.2 ++ "\n")) ↔
      t'.follow env (documentPath outdir d.1) =
        .ok (Path.components (filePath env outdir d.1), false) := by
  rw [FileTree.readBytes_eq_ok]
  constructor
  · rintro ⟨place, hfollow, -⟩
    exact hfollow.trans
      (congrArg _ (FileTree.components_of_follow_join hcwd isName_fileName hfollow))
  · exact fun hfollow => ⟨_, hfollow, h.find?_eq d hd⟩

variable (hnames : ∀ d ∈ docs, Path.IsName d.1)
include hnames

/-- Just those documents are listed that the listing finds where they were written. -/
theorem mem_listing_iff (hproper : t.Proper)
    (hbare : ∀ name bytes, Path.IsName name → t.find?
      (Path.components (Path.absolute env (listedPath outdir name))) ≠ some (.file bytes)) :
    name ∈ stackNames t' env outdir ↔ name ∈ docs.map (·.1) ∧
      t'.follow env (listedPath outdir name) =
        .ok (Path.components (filePath env outdir name), false) := by
  rw [mem_stackNames_iff (h.proper hproper)]
  constructor
  · rintro ⟨hname, hfile⟩
    obtain ⟨bytes, hread⟩ := FileTree.isFile_iff.mp hfile
    obtain ⟨place, hfollow, hfind⟩ := FileTree.readBytes_eq_ok.mp hread
    have hplace := (Prod.mk.inj
      (FileTree.components_of_follow_join hcwd isName_fileName hfollow)).1
    -- the file was not there before, so it is one of those that were written
    obtain ⟨d, hd, heq⟩ : ∃ d ∈ docs, place = Path.components (filePath env outdir d.1) := by
      by_contra hnone
      have hkeeps := h.keeps place fun d hd heq => hnone ⟨d, hd, heq⟩
      rcases hkeeps with hsame | ⟨-, hmade⟩
      · exact hbare name bytes hname (by rw [← hfind, hsame, hplace, listedPath])
      · cases hfind.symm.trans hmade
    have hname' : name = d.1 := by
      rw [hplace, components_filePath hcwd (hnames d hd)] at heq
      have hends := (List.append_inj' ((components_listedPath hcwd hname outdir).symm.trans heq) rfl).2
      simpa using hends
    rw [hname'] at hfollow ⊢
    exact ⟨List.mem_map_of_mem hd, heq ▸ hfollow⟩
  · rintro ⟨hmem, hfollow⟩
    obtain ⟨d, hd, rfl⟩ := List.mem_map.mp hmem
    refine ⟨hnames d hd, FileTree.isFile_iff.mpr ⟨_, FileTree.readBytes_eq_ok.mpr
      ⟨_, hfollow, h.find?_eq d hd⟩⟩⟩

/-- The directories before a document are there, and no part of its path has a null character. -/
theorem descend_dropLast {d : String × String} (hd : d ∈ docs) {base : List String}
    (hbase : Path.components (Path.absolute env (baseDirectory outdir)) = base) :
    t'.descend [] (base ++ [stacksName] ++ [d.1]) = .ok (base ++ [stacksName] ++ [d.1]) ∧
      ∀ name ∈ base ++ [stacksName, d.1, fileName], '\x00' ∉ name.toList := by
  have hname := hnames d hd
  have hfollow := h.follow_eq d hd
  have hspells := spells_filePath hcwd outdir hname.slash_not_mem
  rw [← hspells.components_eq, components_filePath hcwd hname, hbase] at hspells
  refine ⟨?_, fun name hmem hnull =>
    (FileTree.follow_eq_ok.mp hfollow).1 (hspells.mem_of_mem hmem hnull)⟩
  have happend : base ++ [stacksName, d.1, fileName] =
      base ++ [stacksName] ++ [d.1] ++ [fileName] := by simp
  rw [happend] at hspells
  exact (FileTree.descend_of_spells hspells hfollow).1

/-- The path of a document that was written may be looked for if it is straight. -/
theorem isLegal_documentPath (hs : Straight outdir docs) {d : String × String} (hd : d ∈ docs) :
    FileTree.IsLegal (documentPath outdir d.1) := by
  obtain ⟨-, hnull⟩ := h.descend_dropLast hcwd hnames hd rfl
  refine ⟨?_, hs.size_lt d hd⟩
  have hne : '\x00' ≠ '/' := by decide
  rw [documentPath_eq, listedPath, Path.mem_join_iff isName_fileName hne,
    Path.mem_join_iff (hnames d hd) hne, Path.mem_join_iff isName_stacksName hne]
  rintro (((hmem | hmem) | hmem) | hmem)
  · refine FileTree.null_not_mem_of_components hcwd hs.dots_not_mem (fun name hname => ?_) hmem
    exact hnull name (List.mem_append_left _ hname)
  all_goals exact hnull _ (by simp) hmem

/-- A straight path leads to where the document was written. -/
theorem follow_documentPath (hs : Straight outdir docs) {d : String × String} (hd : d ∈ docs) :
    t'.follow env (documentPath outdir d.1) =
      .ok (Path.components (filePath env outdir d.1), false) := by
  have hname := hnames d hd
  -- all directories on the way from the root are there, and so those from the working directory on
  obtain ⟨hwithin, -⟩ := h.descend_dropLast hcwd hnames hd rfl
  obtain ⟨hshort, above, habove, hfind, heq⟩ := (FileTree.descend_concat_eq_ok hname).mp hwithin
  obtain ⟨rfl, -⟩ := List.append_inj' heq rfl
  obtain ⟨hshort', base, hbase, hfind', heq'⟩ :=
    (FileTree.descend_concat_eq_ok isName_stacksName).mp habove
  obtain ⟨rfl, -⟩ := List.append_inj' heq' rfl
  have hreach := FileTree.reach_of_not_mem hcwd hs.dots_not_mem hbase
  have hstacks := (FileTree.reach_join_eq_ok isName_stacksName).mpr
    ⟨hshort', _, hreach, hfind', rfl⟩
  have hstack := (FileTree.reach_join_eq_ok hname).mpr ⟨hshort, _, hstacks, hfind, rfl⟩
  rw [components_filePath hcwd hname]
  exact (FileTree.follow_join_eq_ok isName_fileName).mpr
    ⟨h.isLegal_documentPath hcwd hnames hs hd, by decide +kernel, _, hstack, by simp⟩

/-- A listing that looks in another directory than the one that is used lists nothing. -/
theorem stackNames_eq_nil (hproper : t.Proper)
    (hbare : ∀ name bytes, Path.IsName name → t.find?
      (Path.components (Path.absolute env (listedPath outdir name))) ≠ some (.file bytes))
    (hne : Path.components (Path.absolute env outdir) ≠
      Path.components (Path.absolute env (baseDirectory outdir))) :
    stackNames t' env outdir = [] := by
  refine List.eq_nil_iff_forall_not_mem.mpr fun name hmem => hne ?_
  obtain ⟨hmem, hfollow⟩ := (h.mem_listing_iff hcwd hnames hproper hbare).mp hmem
  obtain ⟨d, hd, rfl⟩ := List.mem_map.mp hmem
  have hplace := (Prod.mk.inj
    (FileTree.components_of_follow_join hcwd isName_fileName hfollow)).1
  rw [components_filePath hcwd (hnames d hd)] at hplace
  exact (List.append_inj' (hplace.trans (components_listedPath hcwd (hnames d hd) outdir)) rfl).1.symm

end Stored

/-- What is listed, and what is read where the documents' paths lead, is what was written as far as
these paths can be followed. -/
structure Listed (t' : FileTree) (env : Environment) (outdir : String)
    (docs : List (String × String)) : Prop where
  /-- A listing ascends, and lists nothing twice. -/
  sorted : (stackNames t' env outdir).Pairwise (· < ·)
  /-- Just those names are listed whose documents the listing finds where they are. -/
  mem_iff : ∀ name, name ∈ stackNames t' env outdir ↔ name ∈ docs.map (·.1) ∧
    t'.follow env (listedPath outdir name) = .ok (Path.components (filePath env outdir name), false)
  /-- Just those documents are read whose paths lead to where they are. -/
  readBytes_iff : ∀ d ∈ docs,
    t'.readBytes env (documentPath outdir d.1) = .ok (Text.utf8 (d.2 ++ "\n")) ↔
      t'.follow env (documentPath outdir d.1) =
        .ok (Path.components (filePath env outdir d.1), false)
  /-- The paths of documents lead there if they are straight. -/
  readBytes_eq : Straight outdir docs → ∀ d ∈ docs,
    t'.readBytes env (documentPath outdir d.1) = .ok (Text.utf8 (d.2 ++ "\n"))
  /-- Then the names are all listed, too, if the directory has no blanks around it. -/
  mem_iff_of_strip_eq : Straight outdir docs → Text.strip outdir = outdir → outdir ≠ "" →
    ∀ name, name ∈ stackNames t' env outdir ↔ name ∈ docs.map (·.1)
  /-- A listing that looks in another directory than the one that is used lists nothing. -/
  unseen : Path.components (Path.absolute env outdir) ≠
    Path.components (Path.absolute env (baseDirectory outdir)) → stackNames t' env outdir = []

/-- After documents with different names were written to an output directory without any, just these
are listed and read there, as far as the paths that a listing and a reader look at can be followed and
lead to where the documents were written. -/
theorem storesAll_listed {docs : List (String × String)} (hcwd : Path.isAbsolute env.cwd = true)
    (hproper : t.Proper) (hnames : ∀ d ∈ docs, Path.IsName d.1) (hnodup : (docs.map (·.1)).Nodup)
    (hbare : ∀ name bytes, Path.IsName name → t.find?
      (Path.components (Path.absolute env (listedPath outdir name))) ≠ some (.file bytes))
    (h : StoresAll env outdir t docs t') : Listed t' env outdir docs := by
  have hstored := h.stored hcwd hnames hnodup
  have hmem (name : String) : name ∈ stackNames t' env outdir ↔ name ∈ docs.map (·.1) ∧
      t'.follow env (listedPath outdir name) =
        .ok (Path.components (filePath env outdir name), false) :=
    hstored.mem_listing_iff hcwd hnames hproper hbare
  have hread {d : String × String} (hd : d ∈ docs) := hstored.readBytes_eq_ok_iff hcwd hd
  have hfollow (hs : Straight outdir docs) {d : String × String} (hd : d ∈ docs) :=
    hstored.follow_documentPath hcwd hnames hs hd
  refine ⟨pairwise_stackNames (hstored.proper hproper) env outdir, hmem, fun d hd => hread hd,
    fun hs d hd => (hread hd).mpr (hfollow hs hd), fun hs hstrip hne name => ?_,
    hstored.stackNames_eq_nil hcwd hnames hproper hbare⟩
  rw [hmem]
  refine and_iff_left_of_imp fun hname => ?_
  obtain ⟨d, hd, rfl⟩ := List.mem_map.mp hname
  rw [← hfollow hs hd, documentPath_eq, baseDirectory_of_strip_eq hstrip hne]

/-- Documents can be written to paths that receive them. -/
theorem exists_storesAll {names : List String}
    (h : ∀ name ∈ names, t.Receives env (filePath env outdir name)) :
    ∃ docs t', docs.map (·.1) = names ∧ StoresAll env outdir t docs t' := by
  induction names generalizing t with
  | nil => exact ⟨[], t, rfl, .nil t⟩
  | cons name names ih =>
    obtain ⟨hreceives, hrest⟩ := List.forall_mem_cons.mp h
    obtain ⟨text, place, hfree, hstores⟩ := exists_stores hreceives
    obtain ⟨docs, t', hdocs, hall⟩ := ih fun other hother => (hrest other hother).put hfree _
    exact ⟨(name, text) :: docs, t', by rw [List.map_cons, hdocs], .cons hstores hall⟩

/-- The directories for documents of stacks are proper. -/
theorem proper_neighbourTree : neighbourTree.Proper := ⟨by decide, by decide +kernel⟩

/-- They hold no file. -/
theorem find?_neighbourTree (place : List String) (bytes : List UInt8) :
    neighbourTree.find? place ≠ some (.file bytes) := by
  have hall : ∀ e ∈ neighbourTree.entries, e.2 = .directory := by decide
  unfold FileTree.find?
  split
  · simp
  · intro h
    obtain ⟨e, he, hfile⟩ := Option.map_eq_some_iff.mp h
    cases (hall e (List.mem_of_find?_eq_some he)).symm.trans hfile

/-- Two documents are written and listed. -/
theorem storesAll_listed_neighbours : ∃ docs t', docs.map (·.1) = ["net", "app"] ∧
    StoresAll ⟨"/work", []⟩ "out" neighbourTree docs t' ∧
    (∀ name, name ∈ stackNames t' ⟨"/work", []⟩ "out" ↔ name ∈ ["net", "app"]) ∧
    ∀ d ∈ docs, t'.readBytes ⟨"/work", []⟩ (documentPath "out" d.1) =
      .ok (Text.utf8 (d.2 ++ "\n")) := by
  have hreceives : ∀ name ∈ ["net", "app"],
      neighbourTree.Receives ⟨"/work", []⟩ (filePath ⟨"/work", []⟩ "out" name) := by
    refine List.forall_mem_cons.mpr ⟨?_, List.forall_mem_singleton.mpr ?_⟩
    · have hpath : filePath ⟨"/work", []⟩ "out" "net" = "/work/out/stacks/net/cdk.tf.json" := by
        decide +kernel
      exact hpath ▸ receives_net
    · have hpath : filePath ⟨"/work", []⟩ "out" "app" = "/work/out/stacks/app/cdk.tf.json" := by
        decide +kernel
      rw [hpath]
      exact @receives_neighbourTree _ "/work/out/stacks/app" "/work/out/stacks" (by simp)
        (by decide +kernel)
  obtain ⟨docs, t', hdocs, hall⟩ := exists_storesAll hreceives
  have hnames : ∀ d ∈ docs, Path.IsName d.1 := by
    intro d hd
    have hmem : d.1 ∈ ["net", "app"] := hdocs ▸ List.mem_map_of_mem hd
    exact (by decide : ∀ name ∈ ["net", "app"], Path.IsName name) d.1 hmem
  have hlisted := storesAll_listed rfl proper_neighbourTree hnames (by rw [hdocs]; decide)
    (fun _ _ _ => find?_neighbourTree _ _) hall
  have hstraight : Straight "out" docs := by
    refine ⟨by decide +kernel, fun d hd => ?_⟩
    have hmem : d.1 ∈ ["net", "app"] := hdocs ▸ List.mem_map_of_mem hd
    exact (by decide +kernel : ∀ name ∈ ["net", "app"],
      (documentPath "out" name).utf8ByteSize < FileTree.pathLimit) d.1 hmem
  have hmem := hlisted.mem_iff_of_strip_eq hstraight (by decide +kernel) (by decide)
  rw [hdocs] at hmem
  exact ⟨docs, t', hdocs, hall, hmem, hlisted.readBytes_eq hstraight⟩

/-- Nothing is listed in a directory with a blank before its name, whatever was written to it. -/
private theorem stackNames_of_storesAll {docs : List (String × String)} {t' : FileTree}
    (hnames : ∀ d ∈ docs, Path.IsName d.1) (hnodup : (docs.map (·.1)).Nodup)
    (h : StoresAll ⟨"/work", []⟩ " out" neighbourTree docs t') :
    stackNames t' ⟨"/work", []⟩ " out" = [] := by
  have helsewhere : Path.components (Path.absolute ⟨"/work", []⟩ " out") ≠
      Path.components (Path.absolute ⟨"/work", []⟩ (baseDirectory " out")) := by decide +kernel
  exact (h.stored rfl hnames hnodup).stackNames_eq_nil rfl hnames proper_neighbourTree
    (fun _ _ _ => find?_neighbourTree _ _) helsewhere

/-- A document that is written to a directory with a blank before its name is not listed there. -/
theorem stackNames_blank : ∃ docs t', docs.map (·.1) = ["net"] ∧
    StoresAll ⟨"/work", []⟩ " out" neighbourTree docs t' ∧
    stackNames neighbourTree ⟨"/work", []⟩ " out" = [] ∧
    stackNames t' ⟨"/work", []⟩ " out" = [] := by
  have hpath : filePath ⟨"/work", []⟩ " out" "net" = "/work/out/stacks/net/cdk.tf.json" := by
    decide +kernel
  have hreceives : ∀ name ∈ ["net"],
      neighbourTree.Receives ⟨"/work", []⟩ (filePath ⟨"/work", []⟩ " out" name) :=
    List.forall_mem_singleton.mpr (hpath ▸ receives_net)
  obtain ⟨docs, t', hdocs, hall⟩ := exists_storesAll hreceives
  have hnames : ∀ d ∈ docs, Path.IsName d.1 := by
    intro d hd
    have hmem : d.1 ∈ ["net"] := hdocs ▸ List.mem_map_of_mem hd
    rw [List.mem_singleton.mp hmem]
    decide
  have hnodup : (docs.map (·.1)).Nodup := by
    rw [hdocs]
    decide
  exact ⟨docs, t', hdocs, hall, stackNames_of_storesAll (by simp) (by simp) (.nil _),
    stackNames_of_storesAll hnames hnodup hall⟩

end Groundplan.Output
