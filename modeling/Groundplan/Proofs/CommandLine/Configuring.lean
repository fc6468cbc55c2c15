import Groundplan.Proofs.CommandLine.Running
import Groundplan.Proofs.Settings.Leniency

/-!
# Coming to settings

A run takes its settings from a file, lets the command line have its say and checks them leniently;
then it makes their paths absolute. It comes to sound settings in this way whatever the file holds,
but for what checking stops at and for a path that starts with the home directory of a user who
cannot be looked up.
-/

namespace Groundplan

namespace Settings

/-- A settings file is read or cannot be used as where there is always room, or reading it breaks
down on more brackets than there is room for. -/
theorem readFileWithin_cases (room : Room) (t : FileTree) (env : Environment) (path : String) :
    readFileWithin room t env path = .ok (readFile t env path) ∨
      ∃ text cause n, t.readText env path = .ok text ∧ room = some n ∧
        n < Json.brackets text.toList ∧ readFileWithin room t env path = .error cause := by
  unfold readFileWithin readFile
  cases t.readText env path with
  | error e => exact .inl rfl
  | ok text =>
    dsimp only
    rcases Json.readWithin_cases room text with ⟨hread, hintact⟩ | ⟨cause, n, hread, hroom, hn⟩
    · rw [hread]
      cases hwide : Json.read text with
      | ok d => exact .inl rfl
      | error fault =>
        cases fault with
        | breakdown cause => exact absurd hwide (hintact cause)
        | _ => exact .inl rfl
    · rw [hread]
      exact .inr ⟨text, cause, n, rfl, hroom, hn, rfl⟩

/-- Loading settings gives what it gives where there is always room, or breaks down on more brackets
than there is room for. -/
theorem loadWithin_cases (room : Room) (t : FileTree) (env : Environment) (path : Option String) :
    loadWithin room t env path = .ok (load t env path) ∨
      ∃ text cause n, t.readText env (filePath env path) = .ok text ∧ room = some n ∧
        n < Json.brackets text.toList ∧ loadWithin room t env path = .error cause := by
  unfold loadWithin load
  dsimp only
  split
  · rcases readFileWithin_cases room t env (filePath env path) with
      hread | ⟨text, cause, n, htext, hroom, hn, hread⟩
    · rw [hread]
      exact .inl rfl
    · rw [hread]
      exact .inr ⟨text, cause, n, htext, hroom, hn, rfl⟩
  · exact .inl rfl

/-- Where there is always room, loading settings does not break down. -/
theorem loadWithin_none (t : FileTree) (env : Environment) (path : Option String) :
    loadWithin none t env path = .ok (load t env path) := by
  rcases loadWithin_cases none t env path with h | ⟨_, _, _, -, hroom, -⟩
  · exact h
  · cases hroom

end Settings

namespace Session

/-- Events are noted one after the other. -/
theorem goes_forM_note (events : List Event) (s : Session) :
    goes (events.forM note) s = (.ok (), { s with events := s.events ++ events }) := by
  induction events generalizing s with
  | nil =>
    rw [List.append_nil]
    rfl
  | cons e events ih =>
    have hcons : (e :: events).forM note = note e >>= fun _ => events.forM note := rfl
    rw [hcons, goes_bind_of_ok (goes_note e s), ih, List.append_assoc, List.singleton_append]

/-- What a settings file gives over the defaults is taken, where there is room to read the file. -/
theorem goes_loadSettingsWithin (room : Room) (path : Option String) (s : Session) :
    goes (loadSettingsWithin room path) s =
      match Settings.loadWithin room s.files s.environment path with
      | .error cause => (.error (.ofBreakdown cause), s)
      | .ok (es, events) => (.ok es, { s with events := s.events ++ events }) := by
  unfold loadSettingsWithin
  rw [goes_bind_of_ok (goes_get s), goes_bind, goes_orFail]
  cases Settings.loadWithin room s.files s.environment path with
  | error cause => rfl
  | ok loaded => exact goes_bind_of_ok (goes_forM_note _ s)

/-- What a settings file gives over the defaults is taken. -/
theorem goes_loadSettings (path : Option String) (s : Session) :
    goes (loadSettings path) s =
      (.ok (Settings.load s.files s.environment path).1,
        { s with events := s.events ++ (Settings.load s.files s.environment path).2 }) := by
  rw [loadSettings, goes_loadSettingsWithin, Settings.loadWithin_none]

/-- Checking a mapping leaves the session as it is. -/
theorem goes_checkSettings_mapping (strict : Bool) (es : Entries Datum) (s : Session) :
    goes (checkSettings strict (.mapping false es)) s =
      ((Settings.check s.workspace.naming strict (.mapping false es)).mapError .setting, s) := by
  unfold checkSettings
  rw [goes_bind_of_ok (goes_get s)]
  dsimp only
  rw [goes_bind, goes_orFail]
  cases Settings.check s.workspace.naming strict (.mapping false es) <;> rfl

end Session

/-- What a file gives over the defaults are fields. -/
theorem Settings.fields_load (t : FileTree) (env : Environment) (path : Option String) :
    (Settings.load t env path).1.Fields := by
  have hdefault : defaultEntries.Fields := by decide
  unfold load overDefaults
  dsimp only
  split
  · split
    · exact hdefault
    · exact fields_overlay _
    · exact hdefault
  · exact hdefault

namespace CommandLine.Run

variable {i : Invocation} {p : Execution}

/-- The settings that a run checks: those of its settings file over the defaults, and what the command
line says instead. -/
def taken (i : Invocation) (p : Execution) : Entries Datum :=
  overridden (Settings.load p.session.files p.session.environment i.settingsPath).1 i

/-- What stops a run before it has come to settings. -/
inductive Stops (i : Invocation) (p : Execution) : Prop
  | balks (h : Settings.Balks (.mapping false (taken i p)))
  | nullUser {name path : String} (hname : name ∈ ["output_dir", "log_file"])
      (hpath : (taken i p).get? (.text name) = some (.text path))
      (h : Path.hasNullUser (Text.strip path) = true)

private theorem fields_overridden {es : Entries Datum} (hes : es.Fields) (i : Invocation) :
    (overridden es i).Fields := by
  unfold overridden
  cases i.outputDir with
  | none =>
    dsimp only
    split
    · exact hes.set _ _
    · exact hes
  | some directory =>
    have hset := hes.set "output_dir" (.text directory)
    dsimp only
    split
    · exact hset.set _ _
    · exact hset

private theorem distinct_taken (i : Invocation) (p : Execution) : (taken i p).Distinct :=
  (fields_overridden (Settings.fields_load _ _ _) i).distinct

/-- A setting that is a path starts with the home directory of a user who cannot be looked up
exactly if what it was taken from does. -/
private theorem hasNullUser_iff {fallback : String} {allowEmpty : Bool}
    (hfallback : Path.hasNullUser (Text.strip fallback) = false) {given : Option Datum} {path : String}
    {notes : List String}
    (h : (Settings.textMeaning fallback allowEmpty).Settles given path notes) :
    Path.hasNullUser (Text.strip path) = true ↔
      ∃ s, given = some (.text s) ∧ Path.hasNullUser (Text.strip s) = true := by
  have hnone (hgiven : ∀ s, given = some (.text s) → Path.hasNullUser (Text.strip s) = false) :
      Path.hasNullUser (Text.strip fallback) = true ↔
        ∃ s, given = some (.text s) ∧ Path.hasNullUser (Text.strip s) = true := by
    refine iff_of_false (by simp [hfallback]) ?_
    rintro ⟨s, hs, hnull⟩
    exact Bool.false_ne_true ((hgiven s hs).symm.trans hnull)
  cases h with
  | missing => exact hnone nofun
  | silent hsilent =>
    refine hnone fun s hs => ?_
    obtain rfl := Option.some.inj hs
    rcases hsilent with h | ⟨t, ht, hblank, -⟩
    · cases h
    · cases ht
      rw [hblank]
      rfl
  | usable hmeans =>
    obtain ⟨s, rfl, rfl, -⟩ := hmeans
    rw [Text.strip_strip]
    refine ⟨fun hnull => ⟨s, rfl, hnull⟩, ?_⟩
    rintro ⟨t, ht, hnull⟩
    cases ht
    exact hnull
  | unusable hsilent hmeans _ =>
    refine hnone fun s hs => ?_
    obtain rfl := Option.some.inj hs
    refine absurd ⟨s, rfl, rfl, fun hempty => ?_⟩ (hmeans (Text.strip s))
    cases hallow : allowEmpty with
    | true => rfl
    | false => exact absurd (.inr ⟨s, rfl, hempty, hallow⟩) hsilent

/-- The paths of settings are made absolute unless one of them starts with the home directory of a
user who cannot be looked up. -/
private theorem failsElse_located (env : Environment) (s : Settings) :
    FailsElse (Path.hasNullUser (Text.strip s.outputDir) = true ∨
        Path.hasNullUser (Text.strip s.logFile) = true)
      (fun s' => located env s = .ok s') (located env s) := by
  have hlocate (path fallback : String) :
      FailsElse (Path.hasNullUser (Text.strip path) = true) (fun _ => True)
        (locate env path fallback) := by
    unfold locate
    split
    · next h => exact .failure h
    · next h => exact .answer h trivial
  unfold located
  refine FailsElse.self (P := fun _ => True) ((hlocate _ _).bind fun _ _ => ?_)
  dsimp only
  split
  · next hempty =>
    rw [String.isEmpty_iff.mp hempty]
    exact .answer (by decide) trivial
  · exact (hlocate _ _).bind_pure fun _ _ => trivial

/-- What stops a run with settings at hand is a path among them. -/
private theorem stops_iff (hbalks : ¬Settings.Balks (.mapping false (taken i p))) {s : Settings}
    {notes : List String} (h : Settings.Settled (.mapping false (taken i p)) s notes) :
    Path.hasNullUser (Text.strip s.outputDir) = true ∨ Path.hasNullUser (Text.strip s.logFile) = true ↔
      Stops i p := by
  cases h with
  | mapping _ houtputDir hlogFile =>
    rw [hasNullUser_iff (by decide) houtputDir, hasNullUser_iff (by decide) hlogFile]
    constructor
    · rintro (⟨path, hpath, hnull⟩ | ⟨path, hpath, hnull⟩)
      · exact .nullUser (by simp) hpath hnull
      · exact .nullUser (by simp) hpath hnull
    · rintro (h | ⟨hname, hpath, hnull⟩)
      · exact absurd h hbalks
      · rcases List.mem_pair.mp hname with rfl | rfl
        · exact .inl ⟨_, hpath, hnull⟩
        · exact .inr ⟨_, hpath, hnull⟩
  | other hd => exact absurd rfl (hd _)

/-- A run in which work on the session leaves the environment as it is goes on in that environment. -/
private theorem exists_goes_work {α : Type} {w : Work α} {result : Except Failure α} {s : Session}
    (hw : goes w { p.session with events := [] } = (result, s))
    (henv : s.environment = p.session.environment) :
    ∃ p', goes (work w) p = (result, p') ∧ p'.session.environment = p.session.environment :=
  ⟨p.resumed s, by rw [goes_work, hw], by rw [Execution.session_resumed]; exact henv⟩

/-- A run comes to settings unless something stops it. -/
private theorem failsElse_soundSettings (i : Invocation) (p : Execution) :
    FailsElse (Stops i p)
      (fun r => ∃ s, Settings.Settled (.mapping false (taken i p)) s r.2 ∧
        located p.session.environment s = .ok r.1)
      (goes (soundSettings i) p).1 := by
  obtain ⟨p₁, hload, henv₁⟩ := exists_goes_work (Session.goes_loadSettings i.settingsPath _) rfl
  obtain ⟨p₂, hcheck, henv₂⟩ :=
    exists_goes_work (Session.goes_checkSettings_mapping false (taken i p) _) rfl
  have hsettled := (Settings.failsElse_check p₁.session.workspace.naming
    (d := .mapping false (taken i p)) (distinct_taken i p)).mapError Failure.setting
  dsimp only at hcheck
  -- What matters of the checked settings from here on is that they are settled.
  generalize Except.mapError _ _ = checked at hcheck hsettled
  unfold soundSettings
  rw [goes_bind_of_ok hload]
  change FailsElse _ _
    (goes (work (Session.checkSettings false (.mapping false (taken i p))) >>= _) p₁).1
  rw [goes_bind, hcheck]
  cases hsettled with
  | failure hbalks => exact .failure (.balks hbalks)
  | @answer r hbalks hr =>
    obtain ⟨s, notes⟩ := r
    have hlocated := (failsElse_located p.session.environment s).congr (stops_iff hbalks hr)
    dsimp only
    rw [goes_bind_of_ok (goes_get p₂), goes_bind, goes_work, Session.goes_orFail, henv₂, henv₁]
    generalize hresult : located p.session.environment s = result at hlocated
    cases hlocated with
    | failure hstops => exact .failure hstops
    | answer hstops _ => exact .answer hstops ⟨s, hr, hresult⟩

/-- Whatever is given for settings, checking it leniently settles them all, each by its default where
nothing is given for it or what is given cannot be used, unless checking stops at digits that are no
numeral or at an integer too long for a message. So a run comes to settings whatever its settings file
holds, unless these stop it, or a path that cannot be expanded. -/
theorem lenient_settings (naming : Naming) {d : Datum} (hd : d.entries.Distinct) (i : Invocation)
    (p : Execution) :
    FailsElse (Settings.Balks d) (fun r => Settings.Settled d r.1 r.2)
        (Settings.check naming false d) ∧
      FailsElse (Stops i p)
        (fun r => ∃ s, Settings.Settled (.mapping false (taken i p)) s r.2 ∧
          located p.session.environment s = .ok r.1)
        (goes (soundSettings i) p).1 :=
  ⟨Settings.failsElse_check naming hd, failsElse_soundSettings i p⟩

/-- Settings of which one is blank, one is a numeral among blanks, and one cannot be used. -/
def looseSettings : Entries Datum :=
  [(.text "output_dir", .text "  "), (.text "indent", .text " 4 "), (.text "log_level", .text "loud")]

/-- A run without arguments in an empty directory. -/
def bareRun : Execution where
  session := { environment := ⟨"/work", []⟩ }
  time := ""

@[inherit_doc bareRun] def bareInvocation : Invocation := ⟨none, none, false, false, false, none⟩

private theorem taken_bareRun : taken bareInvocation bareRun = Settings.defaultEntries := by
  have hpath : Settings.filePath ⟨"/work", []⟩ none = "/work/tfsynth.json" := by decide +kernel
  have hmissing : FileTree.pathExists {} ⟨"/work", []⟩ "/work/tfsynth.json" = false := by
    have hnull : "/work/tfsynth.json".contains '\x00' = false := by simp [String.contains_char_eq]
    rw [FileTree.pathExists, FileTree.lookup, FileTree.follow, hnull]
    rfl
  show (Settings.load {} ⟨"/work", []⟩ none).1 = _
  rw [Settings.load, hpath, hmissing]
  rfl

private theorem not_balks_defaults : ¬Settings.Balks (.mapping false Settings.defaultEntries) := by
  rintro (⟨hname, hd, h⟩ | ⟨hk, hunknown, -⟩)
  · simp only [Settings.intNames, List.mem_cons, List.not_mem_nil, or_false] at hname
    rcases hname with rfl | rfl | rfl <;> cases hd <;> cases h with
    | long h => exact absurd h (by decide)
  · have hknown : ∀ k ∈ Settings.defaultEntries.keys, Settings.defaultEntries.has k = true := by decide
    exact Bool.false_ne_true (hunknown.symm.trans (hknown _ hk))

private theorem not_stops_bareRun : ¬Stops bareInvocation bareRun := by
  rintro (h | ⟨hname, hpath, h⟩)
  · rw [taken_bareRun] at h
    exact not_balks_defaults h
  · rw [taken_bareRun] at hpath
    rcases List.mem_pair.mp hname with rfl | rfl
    · cases hpath
      exact Bool.false_ne_true h
    · cases hpath
      exact Bool.false_ne_true h

/-- A blank directory means the default, blanks around a numeral mean nothing, and a level that
there is not becomes the default; a run without a settings file comes to settings. -/
theorem lenient_settings_loose :
    looseSettings.Distinct ∧
      Settings.Settled (.mapping false looseSettings) { Settings.defaults with indent := 4 }
        ["Field 'indent' converted from ' 4 ' to int.",
          "Invalid field 'log_level': unknown level 'loud'. Using fallback."] ∧
      ∃ r, (goes (soundSettings bareInvocation) bareRun).1 = .ok r := by
  have hdistinct : looseSettings.Distinct := by decide
  obtain ⟨hcheck, hrun⟩ := lenient_settings Naming.bare (d := .mapping false looseSettings) hdistinct
    bareInvocation bareRun
  refine ⟨hdistinct, ?_, ?_⟩
  · have hresult : Settings.check Naming.bare false (.mapping false looseSettings) =
        .ok ({ Settings.defaults with indent := 4 },
          ["Field 'indent' converted from ' 4 ' to int.",
            "Invalid field 'log_level': unknown level 'loud'. Using fallback."]) := by decide +kernel
    rw [hresult] at hcheck
    cases hcheck with
    | answer _ hsettled => exact hsettled
  · generalize (goes (soundSettings bareInvocation) bareRun).1 = result at hrun ⊢
    cases hrun with
    | failure h => exact absurd h not_stops_bareRun
    | answer _ _ => exact ⟨_, rfl⟩

/-- A superscript is a digit, and no numeral: checking stops at it. -/
theorem check_superscript :
    Settings.check Naming.bare false (.mapping false [(.text "indent", .text "²")]) =
      .error (.notNumeral "²") := by
  rfl

end CommandLine.Run

end Groundplan
