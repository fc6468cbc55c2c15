import Groundplan.Logging.Root
import Groundplan.Proofs.Files.NormalPaths
import Groundplan.Proofs.Logging.Rotation

/-!
# Opening sinks

Which sinks there are once logging was set up: the console if it was asked for, and a file if one
was asked for and can be opened. A file that was opened is there and holds what it held; where the
system refuses it, there is a warning instead.
-/

namespace Groundplan.Logging

variable {env : Environment} {s : LogSettings} {o o' : Outlets} {path : String}

/-- The console, if it was asked for, and the file that was opened, if one was. -/
def sinksOf (console : Bool) (file : Option RotatingFile) : List Sink :=
  (if console then [.console] else []) ++ file.toList.map .file

/-- The file that settings ask for under a path. -/
def LogSettings.fileAt (s : LogSettings) (env : Environment) (path : String) : RotatingFile :=
  ⟨Path.absolute env path, s.limit, s.backups⟩

theorem LogSettings.placeOf_fileAt (s : LogSettings) (env : Environment) (path : String) :
    (s.fileAt env path).placeOf 0 = Path.components (Path.absolute env path) := by
  rw [RotatingFile.placeOf, RotatingFile.pathOf_zero]
  rfl

/-- What the outlets are once a file was opened as settings ask for. None is opened if none was
asked for. One that is opened is there, and holds what it held before; no other place differs but
for directories made. One that the system refuses is told of beside the log, and is refused only if
its directory is not there or another directory is in its place. -/
inductive Opens (env : Environment) (s : LogSettings) (o : Outlets) :
    Outlets → Option RotatingFile → Prop
  | unasked (h : s.file = none) : Opens env s o o none
  | opened {path : String} (h : s.file = some path) {files : FileTree}
      (hspells : ∃ names, Path.Spells (s.fileAt env path).path names)
      (hread : files.readBytes env (s.fileAt env path).path =
        .ok (o.files.bytesAt ((s.fileAt env path).placeOf 0)))
      (hkeeps : ∀ place ≠ (s.fileAt env path).placeOf 0, FileTree.Keeps o.files files place) :
      Opens env s o { o with files := files } (some (s.fileAt env path))
  | refused {path : String} (h : s.file = some path) {files : FileTree} {e : FileError}
      (hsystem : e.isSystem = true) (hnot : ¬ o.files.Receives env (s.fileAt env path).path)
      (hkeeps : ∀ place, FileTree.Keeps o.files files place) :
      Opens env s o (Outlets.warn { o with files := files }
        s!"WARNING: cannot open log file '{path}': {e.message}\n") none

private theorem openFile_eq (env : Environment) (s : LogSettings) (path : String) (t : FileTree) :
    ∃ made ensured, t.ensureDirectory env (Path.directory (Path.absolute env path)) = (made, ensured) ∧
      Root.openFile env s path t =
        match ensured with
        | .error e => (made, .error e)
        | .ok () =>
            match made.appendBytes env (Path.absolute env path) [] with
            | .ok t => (t, .ok (s.fileAt env path))
            | .error e => (made, .error e) := by
  unfold Root.openFile
  dsimp only
  generalize t.ensureDirectory env (Path.directory (Path.absolute env path)) = result
  obtain ⟨made, ensured⟩ := result
  refine ⟨made, ensured, rfl, ?_⟩
  cases ensured <;> rfl

/-- A file whose directory is there and in whose place no directory is can be opened, and then it is
there. -/
theorem openFile_of_receives (hcwd : Path.isAbsolute env.cwd = true) {t : FileTree}
    (h : t.Receives env (Path.absolute env path)) (s : LogSettings) :
    ∃ place, t.writable env (Path.absolute env path) = .ok place ∧ Root.openFile env s path t =
      (t.put place (.file (t.bytesAt place)), .ok (s.fileAt env path)) := by
  obtain ⟨_, -, hdirectory, hwrite⟩ := h.writeBytes_eq []
  rw [Path.absolute_absolute hcwd] at hdirectory
  obtain ⟨place, hplace, -⟩ := bind_eq_ok.mp hwrite
  obtain ⟨made, ensured, hmade, hopen⟩ := openFile_eq env s path t
  rw [hdirectory] at hmade
  cases hmade
  dsimp only at hopen
  rw [(FileTree.appendBytes_of_writable hplace []).1, List.append_nil] at hopen
  exact ⟨place, hplace, hopen⟩

/-- A file that is opened with nothing added to it, once directories were made, is there with what it
held. -/
private theorem wrote_of_appendBytes (hcwd : Path.isAbsolute env.cwd = true) {t t' : FileTree}
    {directory : String}
    (h : (t.ensureDirectory env directory).1.appendBytes env (Path.absolute env path) [] = .ok t') :
    (∃ names, Path.Spells (Path.absolute env path) names) ∧
      FileTree.Wrote t t' env (Path.absolute env path)
        (t.bytesAt (Path.components (Path.absolute env path))) := by
  have hkeeps := FileTree.keeps_ensureDirectory t env directory
  obtain ⟨place, hplace⟩ := FileTree.writable_of_appendBytes h
  obtain ⟨happend, hwrite⟩ := FileTree.appendBytes_of_writable hplace []
  rw [h, ← hwrite] at happend
  obtain ⟨names, hs⟩ := FileTree.exists_spells_of_writeBytes hcwd happend.symm
  obtain ⟨slashed, hfollow, hfree⟩ := FileTree.writable_eq_ok hplace
  have hcomponents : place = Path.components (Path.absolute env path) :=
    (congrArg Prod.fst (FileTree.follow_of_spells hs hfollow)).trans hs.components_eq.symm
  have hbytes : (t.ensureDirectory env directory).1.bytesAt place = t.bytesAt place := by
    rcases hkeeps place with hsame | ⟨-, hdirectory⟩
    · exact FileTree.bytesAt_congr hsame
    · exact absurd hdirectory hfree
  rw [List.append_nil, hbytes, hcomponents] at happend
  exact ⟨⟨names, hs⟩, FileTree.wrote_of_writeBytes hs happend.symm⟩

/-- A file is opened, with what it held, or it is not, and nothing is changed but for directories
made. -/
private theorem openFile_cases (hcwd : Path.isAbsolute env.cwd = true) (s : LogSettings) (path : String)
    (t : FileTree) :
    (∃ t', Root.openFile env s path t = (t', .ok (s.fileAt env path)) ∧
        (∃ names, Path.Spells (s.fileAt env path).path names) ∧
        t'.readBytes env (s.fileAt env path).path = .ok (t.bytesAt ((s.fileAt env path).placeOf 0)) ∧
        ∀ place ≠ (s.fileAt env path).placeOf 0, FileTree.Keeps t t' place) ∨
      ∃ t' e, Root.openFile env s path t = (t', .error e) ∧ (∀ place, FileTree.Keeps t t' place) ∧
        ¬ t.Receives env (s.fileAt env path).path := by
  have hpath : (s.fileAt env path).path = Path.absolute env path := rfl
  rw [s.placeOf_fileAt, hpath]
  have hkeeps := FileTree.keeps_ensureDirectory t env (Path.directory (Path.absolute env path))
  have hnot {t' : FileTree} {e : FileError} (hfail : Root.openFile env s path t = (t', .error e)) :
      ¬ t.Receives env (Path.absolute env path) := by
    intro h
    obtain ⟨_, -, hopened⟩ := openFile_of_receives hcwd h s
    rw [hopened] at hfail
    cases hfail
  obtain ⟨made, ensured, hmade, hopen⟩ := openFile_eq env s path t
  have hmade' : (t.ensureDirectory env (Path.directory (Path.absolute env path))).1 = made := by
    rw [hmade]
  rw [hmade'] at hkeeps
  cases ensured with
  | error e => exact .inr ⟨made, e, hopen, hkeeps, hnot hopen⟩
  | ok =>
    dsimp only at hopen
    cases happend : made.appendBytes env (Path.absolute env path) [] with
    | error e =>
      rw [happend] at hopen
      exact .inr ⟨made, e, hopen, hkeeps, hnot hopen⟩
    | ok t' =>
      rw [happend] at hopen
      obtain ⟨hspells, hwrote⟩ := wrote_of_appendBytes hcwd (hmade' ▸ happend)
      exact .inl ⟨t', hopen, hspells,
        hwrote.readBytes_eq (fun _ hd => hd) (FileTree.Keeps.refl _ _), hwrote.keeps⟩

/-- Opening sinks gives those that were asked for and could be opened; it fails only for a path that
can be none. -/
theorem openSinks_cases (hcwd : Path.isAbsolute env.cwd = true) (s : LogSettings) (o : Outlets) :
    (∃ o' file, Root.openSinks env s o = (o', .ok (sinksOf s.console file)) ∧ Opens env s o o' file) ∨
      ∃ o' e, Root.openSinks env s o = (o', .error e) ∧ s.file ≠ none ∧ e.isSystem = false ∧
        o'.console = o.console ∧ ∀ place, FileTree.Keeps o.files o'.files place := by
  unfold Root.openSinks
  dsimp only
  cases hfile : s.file with
  | none =>
    refine .inl ⟨o, none, ?_, .unasked hfile⟩
    rw [sinksOf, Option.toList_none, List.map_nil, List.append_nil]
  | some path =>
    dsimp only
    rcases openFile_cases hcwd s path o.files with
      ⟨files, hopen, hspells, hread, hkeeps⟩ | ⟨files, e, hopen, hkeeps, hnot⟩
    · rw [hopen]
      exact .inl ⟨_, some (s.fileAt env path), rfl, .opened hfile hspells hread hkeeps⟩
    · rw [hopen]
      dsimp only
      cases hsystem : e.isSystem with
      | true =>
        refine .inl ⟨_, none, ?_, .refused hfile hsystem hnot hkeeps⟩
        rw [if_pos rfl, sinksOf, Option.toList_none, List.map_nil, List.append_nil]
      | false => exact .inr ⟨{ o with files := files }, e, rfl, nofun, hsystem, rfl, hkeeps⟩

/-- A file that can be received is opened. -/
theorem Opens.eq_some_of_receives {file : Option RotatingFile} (h : Opens env s o o' file)
    (hfile : s.file = some path) (hreceives : o.files.Receives env (s.fileAt env path).path) :
    file = some (s.fileAt env path) := by
  cases h with
  | unasked hnone =>
    rw [hnone] at hfile
    cases hfile
  | opened hsome =>
    rw [hsome] at hfile
    cases hfile
    rfl
  | refused hsome _ hnot =>
    rw [hsome] at hfile
    cases hfile
    exact absurd hreceives hnot

end Groundplan.Logging
