import Groundplan.Proofs.CommandLine.Configuring
import Groundplan.Proofs.Files.TextFile
import Groundplan.Proofs.Files.Writing
import Groundplan.Proofs.Json.Brackets
import Groundplan.Proofs.Settings.Normality

/-!
# Settings kept in a file

Settings that were saved are loaded again: of what was saved, all that is a setting, and the
defaults for the rest. What a settings file holds otherwise, or that there is none, leaves the
defaults, and loading fails only where brackets in the file are nested deeper than there is room
for. Saving writes as it goes: where it stops, what was in the file is gone, and what was written by
then is no settings file, so that loading gives the defaults from then on.
-/

namespace Groundplan

namespace Settings

/-! ### Settings over the defaults -/

/-- The defaults with what is given for them instead. -/
def withGiven (es : Entries Datum) : Entries Datum :=
  defaultEntries.map fun (k, d) => (k, (es.get? k).getD d)

theorem keys_overlay (es : Entries Datum) : (overlay es).keys = defaultEntries.keys := by
  apply Entries.keys_setAll_of_has
  intro k hk
  obtain ⟨e, he, rfl⟩ := List.mem_map.mp hk
  exact (List.mem_filter.mp he).2

/-- Laying fields over the defaults replaces the defaults of the settings among them. -/
theorem overlay_eq {es : Entries Datum} (h : es.Distinct) : overlay es = withGiven es := by
  have hdefaults : defaultEntries.Fields := by decide
  calc overlay es
      = (overlay es).keys.map fun k => (k, ((overlay es).get? k).getD .null) :=
        ((fields_overlay es).map_keys .null).symm
    _ = defaultEntries.map ((fun k => (k, ((overlay es).get? k).getD .null)) ∘ (·.1)) := by
        rw [keys_overlay, Entries.keys, List.map_map]
    _ = withGiven es := List.map_congr_left fun e he => by
        obtain ⟨k, d⟩ := e
        obtain ⟨name, rfl⟩ := hdefaults.texts k (List.mem_map_of_mem he)
        have hfound := hdefaults.get?_of_mem he
        have hknown : defaultEntries.has (.text name) = true := by
          rw [Entries.has_eq_isSome_get?, hfound]
          rfl
        show (Key.text name, ((overlay es).get? (.text name)).getD .null) =
          (Key.text name, (es.get? (.text name)).getD d)
        rw [get?_overlay h hknown, hfound]
        cases es.get? (.text name) <;> rfl

/-- Settings over the defaults are these settings. -/
theorem withGiven_toEntries (s : Settings) : withGiven s.toEntries = s.toEntries := rfl

theorem keys_load (t : FileTree) (env : Environment) (path : Option String) :
    (load t env path).1.keys = defaultEntries.keys := by
  unfold load overDefaults
  dsimp only
  split
  · split
    · rfl
    · exact keys_overlay _
    · rfl
  · rfl

variable {t t' : FileTree} {env : Environment} {path : Option String} {d : Datum}

/-- What a settings file holds was read from its text. -/
theorem readFile_eq_ok {file : String} :
    readFile t env file = .ok d ↔ ∃ text, t.readText env file = .ok text ∧ Json.read text = .ok d := by
  unfold readFile
  cases t.readText env file with
  | error e => simp
  | ok text =>
    cases hread : Json.read text <;> simp [hread]

/-- Only a file that holds an open mapping gives anything but the defaults. -/
theorem load_of_readFile_ne
    (h : ∀ es, readFile t env (filePath env path) ≠ .ok (.mapping false es)) :
    (load t env path).1 = defaultEntries := by
  unfold load overDefaults
  dsimp only
  split
  · split
    · rfl
    · next fixed es hread =>
      cases fixed with
      | false => exact absurd hread (h es)
      | true =>
        obtain ⟨text, -, htext⟩ := readFile_eq_ok.mp hread
        exact (Json.everywhere_given_of_readWithin htext _ (.refl _)).elim
    · rfl
  · rfl

/-- Where a file can be read, what it holds is what loading goes by. -/
theorem loadWithin_of_readText {text : String} (h : t.readText env (filePath env path) = .ok text)
    (room : Room) :
    loadWithin room t env path =
      (readFileWithin room t env (filePath env path)).map (overDefaults (filePath env path)) := by
  obtain ⟨bytes, hbytes, -⟩ := bind_eq_ok.mp h
  rw [loadWithin, if_pos (FileTree.pathExists_of_readBytes hbytes)]

/-! ### What saving leaves in the file -/

/-- The text that is saved of a datum, whether or not it comes to an end. -/
def savedText (d : Datum) : String := String.ofList (Json.draft fileLayout 0 d).written

/-- What saving answers with once it has written. -/
def savedAnswer (env : Environment) (d : Datum) (path : Option String) : Except Failure String :=
  match (Json.draft fileLayout 0 d).fault with
  | some fault => .error (.json fault)
  | none => .ok (filePath env path)

private theorem exists_filePath_eq (env : Environment) (path : Option String) :
    ∃ p, filePath env path = Path.absolute env p := by
  unfold filePath
  split
  · split
    · exact ⟨_, rfl⟩
    · exact ⟨_, rfl⟩
  · exact ⟨_, rfl⟩

/-- Saving that the file system does not refuse writes to the file and nowhere else. -/
theorem wrote_of_save (hcwd : Path.isAbsolute env.cwd = true) {answer : Except Failure String}
    (h : save t env d path = (t', answer)) (hfile : ∀ e, answer ≠ .error (.file e)) :
    FileTree.Wrote t t' env (filePath env path) (Text.utf8 (savedText d)) ∧
      answer = savedAnswer env d path := by
  obtain ⟨p, hp⟩ := exists_filePath_eq env path
  unfold save at h
  dsimp only at h
  split at h
  · cases h
    exact absurd rfl (hfile _)
  · next made hmade =>
    split at h
    · cases h
      exact absurd rfl (hfile _)
    · next t'' hwrite =>
      have hwrote : FileTree.Wrote t t'' env (filePath env path) (Text.utf8 (savedText d)) := by
        rw [hp] at hwrite hmade ⊢
        obtain ⟨names, hspells⟩ := FileTree.exists_spells_of_writeBytes hcwd hwrite
        apply FileTree.wrote_of_writeBytes hspells
        rw [hmade]
        exact hwrite
      rw [savedAnswer]
      cases hfault : (Json.draft fileLayout 0 d).fault with
      | none =>
        rw [hfault] at h
        cases h
        exact ⟨hwrote, rfl⟩
      | some fault =>
        rw [hfault] at h
        cases h
        exact ⟨hwrote, rfl⟩

/-- Where the file can be written, saving writes to it. -/
theorem save_of_receives (h : t.Receives env (filePath env path))
    (habsolute : Path.absolute env (filePath env path) = filePath env path) (d : Datum) :
    ∃ place, t.find? place ≠ some .directory ∧
      save t env d path =
        (t.put place (.file (Text.utf8 (savedText d))), savedAnswer env d path) := by
  obtain ⟨place, hfree, hmade, hwrite⟩ := h.writeBytes_eq (Text.utf8 (savedText d))
  rw [habsolute] at hmade
  refine ⟨place, hfree, ?_⟩
  unfold save savedAnswer
  dsimp only
  rw [hmade]
  dsimp only
  rw [savedText] at hwrite
  rw [hwrite]
  cases (Json.draft fileLayout 0 d).fault <;> rfl

/-- What was saved is read as the text that was saved. -/
theorem readText_of_wrote
    (h : FileTree.Wrote t t' env (filePath env path) (Text.utf8 (savedText d))) :
    t'.readText env (filePath env path) = .ok (savedText d) := by
  have hbytes := h.readBytes_eq (fun _ hd => hd) (FileTree.Keeps.refl t' _)
  have hreturn : '\r' ∉ (savedText d).toList := by
    rw [savedText, String.toList_ofList]
    exact Json.return_not_mem_draft (Json.Layout.blank_ofSpaces 4) d 0
  rw [FileTree.readText, hbytes]
  exact FileTree.textOf_utf8 hreturn

/-- Regular data that was saved to the end is what the file is read as, just where there is room for
it. -/
theorem readFileWithin_of_wrote (hd : Json.Regular d)
    (hfault : (Json.draft fileLayout 0 d).fault = none)
    (h : FileTree.Wrote t t' env (filePath env path) (Text.utf8 (savedText d))) (room : Room) :
    (room.Holds d.depth → readFileWithin room t' env (filePath env path) = .ok (.ok d)) ∧
      (¬ room.Holds d.depth → ∃ cause,
        readFileWithin room t' env (filePath env path) = .error cause) := by
  have hprint : Json.print (.ofSpaces 4) d = .ok (savedText d) := by
    show (Json.draft fileLayout 0 d).result = _
    rw [Draft.result, hfault]
    rfl
  have htext := readText_of_wrote h
  have hread (room : Room) (hroom : room.Holds d.depth) : Json.readWithin room (savedText d) = .ok d :=
    Json.readWithin_print hd hroom hprint
  refine ⟨fun hroom => ?_, fun hroom => ?_⟩
  · simp only [readFileWithin, htext, hread room hroom]
  · rcases Json.readWithin_cases room (savedText d) with ⟨hsame, -⟩ | ⟨cause, n, hcause, -⟩
    · exact absurd (Json.holds_of_readWithin (hsame.trans (hread none (Room.holds_none _)))) hroom
    · exact ⟨cause, by simp only [readFileWithin, htext, hcause]⟩

/-- What was saved and did not come to an end is not what a settings file holds. -/
theorem load_of_stopped {fault : WriteFault} (hfault : (Json.draft fileLayout 0 d).fault = some fault)
    (h : FileTree.Wrote t t' env (filePath env path) (Text.utf8 (savedText d))) :
    (load t' env path).1 = defaultEntries := by
  apply load_of_readFile_ne
  intro es hread
  obtain ⟨text, htext, hread⟩ := readFile_eq_ok.mp hread
  obtain ⟨e, he⟩ := Json.exists_error_of_stopped hfault
  rw [readText_of_wrote h] at htext
  cases htext
  exact absurd (he.symm.trans hread) (by simp)

end Settings

namespace Session

open Settings

variable {s s' : Session} {path : Option String} {d : Datum} {es : Entries Datum}

/-- Loading settings gives these, and does nothing but note events. -/
def Loads (path : Option String) (s : Session) (es : Entries Datum) : Prop :=
  ∃ events, goes (loadSettings path) s = (.ok es, { s with events := s.events ++ events })

theorem loads_iff : Loads path s es ↔ (load s.files s.environment path).1 = es := by
  constructor
  · intro h
    obtain ⟨events, h⟩ := h
    rw [goes_loadSettings] at h
    exact Except.ok.inj (congrArg Prod.fst h)
  · intro h
    exact ⟨_, h ▸ goes_loadSettings path s⟩

/-- Saving settings changes the files as saving does, and notes an event if it comes to an end. -/
theorem goes_saveSettings (d : Datum) (path : Option String) (s : Session) :
    goes (saveSettings d path) s =
      match save s.files s.environment d path with
      | (t, .ok file) =>
          (.ok file, { s with files := t, events := s.events ++ [.settingsSaved file] })
      | (t, .error failure) => (.error failure, { s with files := t }) := by
  unfold saveSettings
  rw [goes_bind, goes_withFiles]
  cases save s.files s.environment d path with
  | mk t answer => cases answer <;> rfl

/-- A session in which saving was not refused has what was saved in the file. -/
private theorem wrote_of_saveSettings (hcwd : Path.isAbsolute s.environment.cwd = true)
    {answer : Except Failure String} (h : goes (saveSettings d path) s = (answer, s'))
    (hfile : ∀ e, answer ≠ .error (.file e)) :
    s'.environment = s.environment ∧
      FileTree.Wrote s.files s'.files s.environment (filePath s.environment path)
        (Text.utf8 (savedText d)) ∧
      answer = savedAnswer s.environment d path := by
  rw [goes_saveSettings] at h
  cases hsave : save s.files s.environment d path with
  | mk t result =>
    rw [hsave] at h
    cases result with
    | ok file =>
      cases h
      exact ⟨rfl, wrote_of_save hcwd hsave hfile⟩
    | error failure =>
      cases h
      exact ⟨rfl, wrote_of_save hcwd hsave hfile⟩

private theorem fault_of_savedAnswer_ok {env : Environment} {file : String}
    (h : .ok file = savedAnswer env d path) : (Json.draft fileLayout 0 d).fault = none := by
  unfold savedAnswer at h
  split at h
  · cases h
  · next hfault => exact hfault

private theorem fault_of_savedAnswer_error {env : Environment} {fault : WriteFault}
    (h : .error (.json fault) = savedAnswer env d path) :
    (Json.draft fileLayout 0 d).fault = some fault := by
  unfold savedAnswer at h
  split at h
  · next hfault =>
    cases h
    exact hfault
  · cases h

/-- Where there is room to read, loading settings gives these, and does nothing but note events. -/
def LoadsWithin (room : Room) (path : Option String) (s : Session) (es : Entries Datum) : Prop :=
  ∃ events, goes (loadSettingsWithin room path) s = (.ok es, { s with events := s.events ++ events })

/-- What was saved of regular data is loaded, over the defaults, just where there is room for it. -/
private theorem loadsWithin_of_saved (hcwd : Path.isAbsolute s.environment.cwd = true) {file : String}
    (hes : Json.Regular (.mapping false es))
    (h : goes (saveSettings (.mapping false es) path) s = (.ok file, s')) (room : Room) :
    (room.Holds (Datum.depth (.mapping false es)) → LoadsWithin room path s' (withGiven es)) ∧
      (¬ room.Holds (Datum.depth (.mapping false es)) → ∃ cause,
        goes (loadSettingsWithin room path) s' = (.error (.ofBreakdown cause), s')) := by
  obtain ⟨henv, hwrote, hanswer⟩ := wrote_of_saveSettings hcwd h (by simp)
  obtain ⟨hfits, hdeep⟩ := readFileWithin_of_wrote hes (fault_of_savedAnswer_ok hanswer) hwrote room
  have hload := loadWithin_of_readText (readText_of_wrote hwrote) room
  rw [← henv] at hfits hdeep hload
  refine ⟨fun hroom => ?_, fun hroom => ?_⟩
  · have hgiven : overlay es = withGiven es := by
      cases hes with
      | mapping hfields => exact overlay_eq hfields.distinct
    rw [hfits hroom] at hload
    refine ⟨(overDefaults (filePath s'.environment path) (.ok (.mapping false es))).2, ?_⟩
    rw [goes_loadSettingsWithin, hload, ← hgiven]
    rfl
  · obtain ⟨cause, hcause⟩ := hdeep hroom
    rw [hcause] at hload
    exact ⟨cause, by rw [goes_loadSettingsWithin, hload]; rfl⟩

/-- What was saved of regular data is loaded, over the defaults. -/
private theorem loads_of_saved (hcwd : Path.isAbsolute s.environment.cwd = true) {file : String}
    (hes : Json.Regular (.mapping false es))
    (h : goes (saveSettings (.mapping false es) path) s = (.ok file, s')) :
    Loads path s' (withGiven es) :=
  (loadsWithin_of_saved hcwd hes h none).1 (Room.holds_none _)

private theorem regular_scalar {a : Scalar} (ha : ∀ x, a ≠ .float x) : Json.Regular (.scalar a) :=
  .scalar fun x hx => absurd hx (ha x)

private theorem regular_toDatum (settings : Settings) : Json.Regular settings.toDatum := by
  have hkeys : settings.toEntries.keys = defaultEntries.keys := rfl
  apply Json.Regular.mapping
  · exact (Entries.fields_iff_of_keys_eq hkeys).mpr (by decide)
  · intro e he
    simp only [toEntries, List.mem_cons, List.not_mem_nil, or_false] at he
    rcases he with rfl | rfl | rfl | rfl | rfl | rfl | rfl <;> exact regular_scalar (by simp)

/-- Of a mapping of texts to regular data that was saved, loading gives all that is a setting, and
the defaults for the rest, just where there is room to read it. So settings that were checked are
loaded as they are where there is room for one bracket, and pass every further check without a
warning. Whatever there is at the path, loading gives all settings in their order, and the defaults
where no mapping can be read there; only where a text at the path opens more brackets than there is
room for, it may break down. -/
theorem loads_of_saves (s : Session) (hcwd : Path.isAbsolute s.environment.cwd = true)
    (path : Option String) (room : Room) :
    (∀ {es : Entries Datum} {file : String} {s' : Session}, Json.Regular (.mapping false es) →
      goes (saveSettings (.mapping false es) path) s = (.ok file, s') →
        (room.Holds (Datum.depth (.mapping false es)) → LoadsWithin room path s' (withGiven es)) ∧
          (¬ room.Holds (Datum.depth (.mapping false es)) → ∃ cause,
            goes (loadSettingsWithin room path) s' = (.error (.ofBreakdown cause), s'))) ∧
    (∀ {naming : Naming} {strict : Bool} {d : Datum} {settings : Settings} {notes : List String}
        {file : String} {s' : Session}, check naming strict d = .ok (settings, notes) →
      goes (saveSettings settings.toDatum path) s = (.ok file, s') →
        (room.Holds 1 → LoadsWithin room path s' settings.toEntries) ∧
          ∀ naming' strict',
            check naming' strict' (.mapping false settings.toEntries) = .ok (settings, [])) ∧
    ((∃ es, LoadsWithin room path s es ∧ es.keys = defaultEntries.keys ∧
        ((∀ given, readFile s.files s.environment (filePath s.environment path) ≠
          .ok (.mapping false given)) → es = defaultEntries)) ∨
      ∃ text cause n, s.files.readText s.environment (filePath s.environment path) = .ok text ∧
        room = some n ∧ n < Json.brackets text.toList ∧
        goes (loadSettingsWithin room path) s = (.error (.ofBreakdown cause), s)) := by
  refine ⟨fun hes hsave => loadsWithin_of_saved hcwd hes hsave room, ?_, ?_⟩
  · intro naming strict d settings notes file s' hcheck hsave
    have hloads := (loadsWithin_of_saved hcwd (regular_toDatum settings) hsave room).1
    rw [withGiven_toEntries] at hloads
    exact ⟨hloads, (normal_of_check hcheck).check_eq_ok⟩
  · rcases loadWithin_cases room s.files s.environment path with
      hload | ⟨text, cause, n, htext, hroom, hn, hload⟩
    · have hloads : LoadsWithin room path s (load s.files s.environment path).1 :=
        ⟨(load s.files s.environment path).2, by rw [goes_loadSettingsWithin, hload]⟩
      exact .inl ⟨_, hloads, keys_load s.files s.environment path, load_of_readFile_ne⟩
    · exact .inr ⟨text, cause, n, htext, hroom, hn, by rw [goes_loadSettingsWithin, hload]⟩

/-- A session in a directory of its own. -/
def workSession : Session where
  environment := ⟨"/work", []⟩
  files := ⟨[(["work"], .directory)]⟩

private theorem filePath_work : filePath ⟨"/work", []⟩ none = "/work/tfsynth.json" := by
  decide +kernel

/-- Where the file can be written, saving writes it, and it can be written again. -/
private theorem goes_saveSettings_work {s : Session} (henv : s.environment = ⟨"/work", []⟩)
    (h : s.files.Receives ⟨"/work", []⟩ "/work/tfsynth.json") (d : Datum) :
    ∃ s', goes (saveSettings d none) s = (savedAnswer ⟨"/work", []⟩ d none, s') ∧
      s'.environment = ⟨"/work", []⟩ ∧ s'.files.Receives ⟨"/work", []⟩ "/work/tfsynth.json" := by
  have habsolute : Path.absolute ⟨"/work", []⟩ "/work/tfsynth.json" = "/work/tfsynth.json" := by
    decide +kernel
  rw [← filePath_work] at h habsolute
  obtain ⟨place, hfree, hsave⟩ := save_of_receives h habsolute d
  have hafter := h.put hfree (Text.utf8 (savedText d))
  rw [filePath_work] at hafter
  rw [goes_saveSettings, henv, hsave]
  cases savedAnswer ⟨"/work", []⟩ d none with
  | ok file => exact ⟨_, rfl, rfl, hafter⟩
  | error failure => exact ⟨_, rfl, rfl, hafter⟩

private theorem receives_work :
    workSession.files.Receives ⟨"/work", []⟩ "/work/tfsynth.json" :=
  @FileTree.receives_of_locate _ _ _ "/work" "/" (by simp) (by decide +kernel) (by decide +kernel)
    (by decide +kernel) (by decide +kernel) (by decide +kernel)

/-- Settings of which one is no setting. -/
def ownedSettings : Entries Datum :=
  [(.text "indent", .int 4), (.text "owner", .list [.text "me", .null]),
    (.text "log_file", .text "größe.log")]

private theorem regular_ownedSettings : Json.Regular (.mapping false ownedSettings) := by
  apply Json.Regular.mapping
  · decide
  · simp only [ownedSettings, List.forall_mem_cons]
    refine ⟨regular_scalar (by simp), .list ?_, regular_scalar (by simp), by simp⟩
    simp only [List.forall_mem_cons]
    exact ⟨regular_scalar (by simp), regular_scalar (by simp), by simp⟩

private theorem savedAnswer_work (hfault : (Json.draft fileLayout 0 d).fault = none) :
    savedAnswer ⟨"/work", []⟩ d none = .ok "/work/tfsynth.json" := by
  rw [savedAnswer, hfault, filePath_work]

/-- The indentation that was saved is loaded, and the owner dropped; rough settings are loaded as
checking left them; and before anything was saved, the defaults are loaded. -/
theorem loads_of_saves_owned :
    let checked : Settings := ⟨"build/out", 4, false, "DEBUG", "", 1048576, 2⟩
    (∃ s', goes (saveSettings (.mapping false ownedSettings) none) workSession =
        (.ok "/work/tfsynth.json", s') ∧
      LoadsWithin (some 2) none s' { defaults with indent := 4, logFile := "größe.log" }.toEntries) ∧
    (∃ notes s', check .bare false (.mapping false roughSettings) = .ok (checked, notes) ∧
      goes (saveSettings checked.toDatum none) workSession = (.ok "/work/tfsynth.json", s') ∧
      LoadsWithin (some 2) none s' checked.toEntries) ∧
    LoadsWithin (some 2) none workSession defaultEntries := by
  intro checked
  obtain ⟨hsaved, hchecked, hany⟩ := loads_of_saves workSession rfl none (some 2)
  have htext (text : String) : workSession.files.readText workSession.environment
      (filePath workSession.environment none) ≠ .ok text := by
    intro htext
    obtain ⟨bytes, hbytes, -⟩ := bind_eq_ok.mp htext
    have hfollow : workSession.files.follow ⟨"/work", []⟩ "/work/tfsynth.json" =
        .ok (["work", "tfsynth.json"], false) :=
      FileTree.follow_eq_ok.mpr ⟨by simp, by decide +kernel⟩
    have hpath : filePath workSession.environment none = "/work/tfsynth.json" := filePath_work
    rw [hpath, FileTree.readBytes] at hbytes
    obtain ⟨place, hplace, hbytes⟩ := bind_eq_ok.mp hbytes
    cases hfollow.symm.trans hplace
    cases hbytes
  refine ⟨?_, ?_, ?_⟩
  · obtain ⟨s', hsave, -, -⟩ := goes_saveSettings_work rfl receives_work (.mapping false ownedSettings)
    rw [savedAnswer_work (by decide +kernel)] at hsave
    exact ⟨s', hsave, (hsaved regular_ownedSettings hsave).1 (Room.allows_iff.mp (by decide +kernel))⟩
  · obtain ⟨s', hsave, -, -⟩ := goes_saveSettings_work rfl receives_work checked.toDatum
    rw [savedAnswer_work (by decide +kernel)] at hsave
    have hcheck : check .bare false (.mapping false roughSettings) = .ok (checked,
        ["Field 'emit_metadata' converted from 'No' to False.",
          "Field 'indent' converted from '04' to int."]) := by decide +kernel
    exact ⟨_, s', hcheck, hsave, (hchecked hcheck hsave).1 (Room.allows_iff.mp (by decide))⟩
  · rcases hany with ⟨es, hload, -, hdefaults⟩ | ⟨text, -, -, hread, -⟩
    · have hnothing : ∀ given, readFile workSession.files workSession.environment
          (filePath workSession.environment none) ≠ .ok (.mapping false given) := by
        intro given hread
        obtain ⟨text, hread, -⟩ := readFile_eq_ok.mp hread
        exact htext text hread
      rw [← hdefaults hnothing]
      exact hload
    · exact absurd hread (htext text)

/-- A session with a settings file. -/
def fileSession (text : String) : Session where
  environment := ⟨"/work", []⟩
  files := ⟨[(["work"], .directory), (["work", "tfsynth.json"], .file (Text.utf8 text))]⟩

private theorem readText_fileSession {text : String} (h : '\r' ∉ text.toList) :
    (fileSession text).files.readText ⟨"/work", []⟩ "/work/tfsynth.json" = .ok text := by
  have hfollow : (fileSession text).files.follow ⟨"/work", []⟩ "/work/tfsynth.json" =
      .ok (["work", "tfsynth.json"], false) :=
    FileTree.follow_eq_ok.mpr ⟨by simp, rfl⟩
  have hbytes : (fileSession text).files.readBytes ⟨"/work", []⟩ "/work/tfsynth.json" =
      .ok (Text.utf8 text) := by
    rw [FileTree.readBytes, hfollow]
    rfl
  rw [FileTree.readText, hbytes]
  exact FileTree.textOf_utf8 h

private theorem bracketText_plain (n : Nat) : '\r' ∉ (Json.bracketText n).toList := by
  rw [Json.bracketText, String.toList_ofList]
  exact fun h => absurd (List.eq_of_mem_replicate h) (by decide)

/-- Where a settings file opens one bracket more than there is room for, loading settings fails. -/
private theorem goes_loadSettingsWithin_brackets (n : Nat) :
    goes (loadSettingsWithin (some n) none) (fileSession (Json.bracketText (n + 1))) =
      (.error (.ofBreakdown (.tooDeep .array)), fileSession (Json.bracketText (n + 1))) := by
  generalize hs : fileSession (Json.bracketText (n + 1)) = s
  have htext : s.files.readText s.environment (filePath s.environment none) =
      .ok (Json.bracketText (n + 1)) := by
    subst hs
    show (fileSession (Json.bracketText (n + 1))).files.readText ⟨"/work", []⟩
      (filePath ⟨"/work", []⟩ none) = _
    rw [filePath_work]
    exact readText_fileSession (bracketText_plain _)
  have hread : readFileWithin (some n) s.files s.environment (filePath s.environment none) =
      .error (.tooDeep .array) := by
    rw [readFileWithin, htext]
    dsimp only
    rw [Json.readWithin_brackets n]
  rw [goes_loadSettingsWithin, loadWithin_of_readText htext, hread]
  rfl

/-- Under the usual limits, loading settings fails where the file is nested too deep. -/
theorem loadSettings_breaksDown :
    let s := fileSession (Json.bracketText 951)
    goes (loadSettingsWithin Limits.usual.reading none) s =
      (.error (.raised "RecursionError"
        "maximum recursion depth exceeded while decoding a JSON array from a unicode string"), s) :=
  goes_loadSettingsWithin_brackets 950

/-- Where saving stopped, the defaults are loaded. -/
private theorem loads_iff_of_stopped (hcwd : Path.isAbsolute s.environment.cwd = true)
    {fault : WriteFault} (h : goes (saveSettings d path) s = (.error (.json fault), s')) :
    Loads path s' es ↔ es = defaultEntries := by
  obtain ⟨henv, hwrote, hanswer⟩ := wrote_of_saveSettings hcwd h (by simp)
  rw [loads_iff, henv, load_of_stopped (fault_of_savedAnswer_error hanswer) hwrote]
  exact eq_comm

/-- Saving stops only at a part, at whatever depth, that has no JSON form. It leaves in the file
what was written by then, which is what was there before only if it was that very text already. And
it is no settings file, so that loading gives the defaults from then on, whatever it gave before. -/
theorem loads_of_stopped_save (hcwd : Path.isAbsolute s.environment.cwd = true) {fault : WriteFault}
    (h : goes (saveSettings d path) s = (.error (.json fault), s')) :
    let file := filePath s.environment path
    let left := Text.utf8 (savedText d)
    (∃ x, Datum.Within x d ∧ ¬ Json.Formed x) ∧
      FileTree.Wrote s.files s'.files s.environment file left ∧
      (s'.files.readBytes s.environment file = s.files.readBytes s.environment file ↔
        s.files.readBytes s.environment file = .ok left) ∧
      (∀ es, Loads path s' es ↔ es = defaultEntries) ∧
      ((∃ es, Loads path s es ∧ Loads path s' es) ↔ Loads path s defaultEntries) := by
  intro file left
  obtain ⟨-, hwrote, hanswer⟩ := wrote_of_saveSettings hcwd h (by simp)
  have hpart : ¬ d.Everywhere Json.Formed := by
    intro hformed
    have hnone : (Json.draft fileLayout 0 d).fault = none := (Json.fault_draft_eq_none d 0).mpr hformed
    exact Option.some_ne_none fault ((fault_of_savedAnswer_error hanswer).symm.trans hnone)
  have hbytes : s'.files.readBytes s.environment file = .ok left :=
    hwrote.readBytes_eq (fun _ hd => hd) (FileTree.Keeps.refl _ _)
  have hload (es : Entries Datum) : Loads path s' es ↔ es = defaultEntries :=
    loads_iff_of_stopped hcwd h
  refine ⟨?_, hwrote, ?_, hload, ?_⟩
  · unfold Datum.Everywhere at hpart
    simpa only [not_forall, exists_prop] using hpart
  · rw [hbytes]
    exact eq_comm
  · constructor
    · intro hsame
      obtain ⟨es, hbefore, hafter⟩ := hsame
      have hdefaults : es = defaultEntries := (hload es).mp hafter
      subst hdefaults
      exact hbefore
    · intro hbefore
      exact ⟨_, hbefore, (hload _).mpr rfl⟩

/-- Settings that cannot be saved, for one of them is a set. -/
def settingsWithSet : Entries Datum :=
  [(.text "output_dir", .text "out"), (.text "indent", .atom (.set [.scalar (.int 1)]))]

/-- A session that saved some settings and then tried to save others that cannot be. -/
private theorem exists_stopped_save :
    ∃ s₁ s₂, goes (saveSettings (.mapping false ownedSettings) none) workSession =
        (.ok "/work/tfsynth.json", s₁) ∧ s₁.environment = ⟨"/work", []⟩ ∧
      goes (saveSettings (.mapping false settingsWithSet) none) s₁ =
        (.error (.json (.noForm "set")), s₂) := by
  obtain ⟨s₁, hfirst, henv, hreceives⟩ :=
    goes_saveSettings_work rfl receives_work (.mapping false ownedSettings)
  obtain ⟨s₂, hsecond, -, -⟩ :=
    goes_saveSettings_work henv hreceives (.mapping false settingsWithSet)
  have hfault : (Json.draft fileLayout 0 (.mapping false settingsWithSet)).fault =
      some (.noForm "set") := by decide +kernel
  rw [savedAnswer_work (by decide +kernel)] at hfirst
  rw [savedAnswer, hfault] at hsecond
  exact ⟨s₁, s₂, hfirst, henv, hsecond⟩

/-- Settings were saved, and saving others stopped at a set: the file is left with a piece of text,
and loading gives the defaults. -/
theorem loads_of_stopped_save_set :
    ∃ s₁ s₂, goes (saveSettings (.mapping false ownedSettings) none) workSession =
        (.ok "/work/tfsynth.json", s₁) ∧
      goes (saveSettings (.mapping false settingsWithSet) none) s₁ =
        (.error (.json (.noForm "set")), s₂) ∧
      s₂.files.readBytes ⟨"/work", []⟩ "/work/tfsynth.json" =
        .ok (Text.utf8 "\x7b\n    \"output_dir\": \"out\",\n    \"indent\": ") ∧
      Loads none s₂ defaultEntries := by
  obtain ⟨s₁, s₂, hfirst, henv, hsecond⟩ := exists_stopped_save
  have hcwd : Path.isAbsolute s₁.environment.cwd = true := by
    rw [henv]
    rfl
  obtain ⟨-, hwrote, -, hload, -⟩ := loads_of_stopped_save hcwd hsecond
  have hbytes := hwrote.readBytes_eq (fun _ hd => hd) (FileTree.Keeps.refl _ _)
  rw [henv, filePath_work] at hbytes
  exact ⟨s₁, s₂, hfirst, hsecond, hbytes, (hload _).mpr rfl⟩

/-- Settings that were saved are no longer loaded once saving others has failed. -/
theorem stopped_save_forgets :
    ∃ s₁ s₂, goes (saveSettings (.mapping false ownedSettings) none) workSession =
        (.ok "/work/tfsynth.json", s₁) ∧
      goes (saveSettings (.mapping false settingsWithSet) none) s₁ =
        (.error (.json (.noForm "set")), s₂) ∧
      Loads none s₁ { defaults with indent := 4, logFile := "größe.log" }.toEntries ∧
      ¬ Loads none s₂ { defaults with indent := 4, logFile := "größe.log" }.toEntries := by
  obtain ⟨s₁, s₂, hfirst, henv, hsecond⟩ := exists_stopped_save
  have hcwd : Path.isAbsolute s₁.environment.cwd = true := by
    rw [henv]
    rfl
  refine ⟨s₁, s₂, hfirst, hsecond, loads_of_saved rfl regular_ownedSettings hfirst, ?_⟩
  rw [loads_iff_of_stopped hcwd hsecond]
  intro hsame
  cases hsame

end Session

end Groundplan
