import Groundplan.Proofs.Logging.Following
import Groundplan.Proofs.Logging.Opening

/-!
# Delivery of records

However far the listener lags behind, once logging is stopped all has been written that was logged.
The console shows the lines of the records that were severe enough, one after the other, and a file
takes them so, after all that it held before. What waits when logging is set up anew is written
before that.
-/

namespace Groundplan.Logging

/-- The text of the lines that are written to the console. -/
def consoleText : List (Sink × Record) → String
  | [] => ""
  | (.console, r) :: lines => r.consoleLine ++ consoleText lines
  | (.file _, _) :: lines => consoleText lines

theorem consoleText_append (lines more : List (Sink × Record)) :
    consoleText (lines ++ more) = consoleText lines ++ consoleText more := by
  induction lines with
  | nil => rw [List.nil_append, consoleText, String.empty_append]
  | cons line lines ih =>
    obtain ⟨sink, r⟩ := line
    cases sink with
    | console => rw [List.cons_append, consoleText, consoleText, ih, String.append_assoc]
    | file f => rw [List.cons_append, consoleText, consoleText, ih]

theorem console_writeAll (o : Outlets) (env : Environment) (lines : List (Sink × Record)) :
    (o.writeAll env lines).console = o.console ++ consoleText lines := by
  induction lines generalizing o with
  | nil => exact (String.append_empty).symm
  | cons line lines ih =>
    obtain ⟨sink, r⟩ := line
    refine (ih _).trans ?_
    cases sink with
    | console => rw [consoleText, ← String.append_assoc]; rfl
    | file f => rfl

/-- Opening sinks shows nothing on the console. -/
theorem console_openSinks (env : Environment) (s : LogSettings) (o : Outlets) :
    (Root.openSinks env s o).1.console = o.console := by
  unfold Root.openSinks
  dsimp only
  cases s.file with
  | none => rfl
  | some path =>
    dsimp only
    generalize Root.openFile env s path o.files = result
    obtain ⟨files, opened⟩ := result
    cases opened with
    | ok file => rfl
    | error e =>
      dsimp only
      by_cases he : e.isSystem = true
      · rw [if_pos he]
        rfl
      · rw [if_neg he]

/-- The handlers of others are those given, and the console shows a text and after it what was written
to it. -/
structure Prompt.Shows (p : Prompt) (foreign : List Nat) (text : String) : Prop where
  foreign_eq : p.foreign = foreign
  console_eq : p.outlets.console = text ++ consoleText p.written

namespace Prompt.Shows

variable {env : Environment} {p : Prompt} {foreign : List Nat} {text : String}

theorem step (h : p.Shows foreign text) (action : Action) : (p.step env action).Shows foreign text := by
  cases action with
  | configure level settings force =>
    have hopen := console_openSinks env (settings.withLevel level) p.outlets
    rw [Prompt.step, Prompt.configure]
    split
    · exact h
    · generalize Root.openSinks env (settings.withLevel level) p.outlets = result at hopen
      obtain ⟨o, opened⟩ := result
      cases opened <;> exact ⟨h.foreign_eq, hopen.trans h.console_eq⟩
  | log r =>
    rw [Prompt.step, Prompt.log]
    split
    · exact h
    · split
      · split
        · exact ⟨h.foreign_eq, h.console_eq⟩
        · exact h
      · refine ⟨h.foreign_eq, ?_⟩
        dsimp only
        rw [console_writeAll, consoleText_append, h.console_eq, String.append_assoc]
  | shutDown => exact ⟨h.foreign_eq, h.console_eq⟩
  | deliver => exact h

theorem run (h : p.Shows foreign text) (actions : List Action) :
    (p.run env actions).Shows foreign text := by
  induction actions generalizing p with
  | nil => exact h
  | cons action actions ih => exact ih (h.step action)

end Prompt.Shows

/-! ### What one configuration delivers -/

/-- Logging stays set up as it is under the action. -/
def Action.Leaves : Action → Prop
  | .configure _ _ force => force = false
  | .log _ => True
  | .shutDown => False
  | .deliver => True

/-- The records among actions that reach a level, in their order. -/
def reaching (level : Int) (actions : List Action) : List Record :=
  actions.filterMap fun
    | .log r => if r.level < level then none else some r
    | _ => none

/-- Records are delivered to the console, if that was asked for, and to a file, if one was opened,
and nowhere else: each is written once and in order. A file takes its lines as long as it and its
old files can be opened. Beside the log there is nothing, unless there is no sink at all. -/
structure Delivers (env : Environment) (console : Bool) (file : Option RotatingFile)
    (records : List Record) (o o' : Outlets) : Prop where
  console_eq : o'.console =
    o.console ++ if console then String.join (records.map Record.consoleLine) else ""
  takes : ∀ f, file = some f → f.Openable env o.files →
    f.Openable env o'.files ∧ f.TakesAll o.files (records.map Record.fileLine) o'.files
  files_eq : file = none → o'.files = o.files
  warnings_eq : console = true ∨ file ≠ none → o'.warnings = o.warnings

namespace Delivers

variable {env : Environment} {console : Bool} {file : Option RotatingFile} {o o' o'' : Outlets}

theorem nil (env : Environment) (console : Bool) (file : Option RotatingFile) (o : Outlets) :
    Delivers env console file [] o o where
  console_eq := by cases console <;> simp
  takes _ _ h := ⟨h, .nil _⟩
  files_eq _ := rfl
  warnings_eq _ := rfl

theorem append {records more : List Record} (h : Delivers env console file records o o')
    (h' : Delivers env console file more o' o'') :
    Delivers env console file (records ++ more) o o'' where
  console_eq := by
    rw [h'.console_eq, h.console_eq]
    cases console <;> simp [String.append_assoc]
  takes f hfile hopen := by
    obtain ⟨hopen', htakes⟩ := h.takes f hfile hopen
    obtain ⟨hopen'', htakes'⟩ := h'.takes f hfile hopen'
    rw [List.map_append]
    exact ⟨hopen'', htakes.append htakes'⟩
  files_eq hfile := (h'.files_eq hfile).trans (h.files_eq hfile)
  warnings_eq hsinks := (h'.warnings_eq hsinks).trans (h.warnings_eq hsinks)

/-- A record that is written to all sinks is delivered. -/
theorem writeAll (env : Environment) (console : Bool) (file : Option RotatingFile) (o : Outlets)
    (r : Record) :
    Delivers env console file [r] o (o.writeAll env ((sinksOf console file).map fun s => (s, r))) := by
  have hfile (f : RotatingFile) (h : f.Openable env o.files) :
      f.Openable env (f.write env o.files r.fileLine) ∧
        f.TakesAll o.files ([r].map Record.fileLine) (f.write env o.files r.fileLine) := by
    obtain ⟨hopen, htakes⟩ := RotatingFile.takes_write h r.fileLine
    exact ⟨hopen, .cons htakes (.nil _)⟩
  cases console with
  | false =>
    cases file with
    | none => exact ⟨String.append_empty.symm, nofun, fun _ => rfl, fun _ => rfl⟩
    | some f =>
      refine ⟨String.append_empty.symm, ?_, nofun, fun _ => rfl⟩
      rintro _ ⟨⟩
      exact hfile f
  | true =>
    have hconsole : String.join ([r].map Record.consoleLine) = r.consoleLine := by simp
    cases file with
    | none =>
      refine ⟨?_, nofun, fun _ => rfl, fun _ => rfl⟩
      rw [if_pos rfl, hconsole]
      rfl
    | some f =>
      refine ⟨?_, ?_, nofun, fun _ => rfl⟩
      · rw [if_pos rfl, hconsole]
        rfl
      · rintro _ ⟨⟩
        exact hfile f

end Delivers

theorem reaching_cons (level : Int) (action : Action) (actions : List Action) :
    reaching level (action :: actions) = reaching level [action] ++ reaching level actions := by
  unfold reaching
  rw [← List.filterMap_append, List.singleton_append]

section Prompt

variable {env : Environment} {console : Bool} {file : Option RotatingFile} {p : Prompt}

/-- Logging without a queue delivers a record that reaches the level, and stays set up as it is. -/
private theorem Prompt.delivers_log (hsinks : p.sinks = sinksOf console file) (r : Record) :
    Delivers env console file (reaching p.level [.log r]) p.outlets (p.log env r).outlets ∧
      (p.log env r).level = p.level ∧ (p.log env r).isConfigured = p.isConfigured ∧
      (p.log env r).sinks = p.sinks := by
  unfold Prompt.log
  by_cases hlevel : r.level < p.level
  · have hnone : reaching p.level [.log r] = [] := by simp [reaching, hlevel]
    rw [if_pos hlevel, hnone]
    exact ⟨.nil env console file p.outlets, rfl, rfl, rfl⟩
  · have hone : reaching p.level [.log r] = [r] := by simp [reaching, hlevel]
    rw [if_neg hlevel, hone]
    have hwritten := Delivers.writeAll env console file p.outlets r
    rw [← hsinks] at hwritten
    split
    · next hempty =>
      -- without a sink nothing is written, but perhaps beside the log
      rw [List.isEmpty_iff.mp hempty] at hwritten
      have hno : ¬ (console = true ∨ file ≠ none) := by
        rw [List.isEmpty_iff, hsinks] at hempty
        cases console <;> cases file <;> simp [sinksOf] at hempty ⊢
      split
      · exact ⟨⟨hwritten.console_eq, hwritten.takes, hwritten.files_eq,
          fun hsome => absurd hsome hno⟩, rfl, rfl, rfl⟩
      · exact ⟨hwritten, rfl, rfl, rfl⟩
    · exact ⟨hwritten, rfl, rfl, rfl⟩

/-- While logging stays set up, logging without a queue delivers each record that reaches the
level. -/
private theorem Prompt.delivers_run (hset : p.isConfigured = true)
    (hsinks : p.sinks = sinksOf console file) {actions : List Action}
    (hleaves : ∀ action ∈ actions, action.Leaves) :
    Delivers env console file (reaching p.level actions) p.outlets (p.run env actions).outlets := by
  induction actions generalizing p with
  | nil => exact .nil env console file p.outlets
  | cons action actions ih =>
    obtain ⟨haction, hactions⟩ := List.forall_mem_cons.mp hleaves
    cases action with
    | configure level settings force =>
      obtain rfl : force = false := haction
      have hkept : p.step env (.configure level settings false) = p := by
        rw [Prompt.step, Prompt.configure, hset]
        rfl
      rw [Prompt.run, List.foldl_cons, hkept]
      exact ih hset hsinks hactions
    | log r =>
      obtain ⟨hdelivers, hlevel, hset', hsinks'⟩ := @Prompt.delivers_log env _ _ _ hsinks r
      have hrest := ih (hset'.trans hset) (hsinks'.trans hsinks) hactions
      rw [hlevel] at hrest
      rw [reaching_cons]
      exact hdelivers.append hrest
    | shutDown => exact absurd haction id
    | deliver => exact ih hset hsinks hactions

end Prompt

/-- Setting logging up anew writes all that waits, and then opens the sinks that were asked for. -/
private theorem Follows.outlets_configure {env : Environment} {s : State} {p : Prompt}
    (h : Follows env s p) (level : Datum) (settings : LogSettings) {force : Bool}
    (hnew : ¬ (s.root.isConfigured && !force) = true) :
    (s.step env (.configure level settings force)).outlets =
      (Root.openSinks env (settings.withLevel level) p.outlets).1 := by
  obtain ⟨root, hdetach, -⟩ := h.detach (settings.withLevel level).level
  rw [State.step, Root.configure, if_neg hnew, hdetach]
  dsimp only
  obtain ⟨o, opened⟩ := Root.openSinks env (settings.withLevel level) p.outlets
  cases opened with
  | error e => rfl
  | ok sinks => cases sinks <;> rfl

/-- Once logging is set up anew it is set up as was asked for, with the sinks that could be opened,
after all that waited was written; and while it stays so, what reaches its level is delivered. -/
private theorem Follows.delivers_configure {env : Environment} (hcwd : Path.isAbsolute env.cwd = true)
    {s : State} {p : Prompt} (h : Follows env s p) (level : Datum) (settings : LogSettings)
    {force : Bool} (hnew : s.root.isConfigured = true → force = true) :
    let asked := settings.withLevel level
    let c := s.step env (.configure level settings force)
    (∃ file, Opens env asked p.outlets c.outlets file ∧ c.root.level = asked.level ∧
        c.root.isConfigured = true ∧
        (c.root.listener.map Listener.sinks).getD [] = sinksOf asked.console file ∧
        ∀ during, (∀ action ∈ during, action.Leaves) →
          Delivers env asked.console file (reaching asked.level during) c.outlets
            ((c.run env during).step env .shutDown).outlets) ∨
      asked.file ≠ none ∧ c.root.listener = none ∧ c.root.isConfigured = s.root.isConfigured ∧
        c.outlets.console = p.outlets.console := by
  intro asked c
  have hfollows : Follows env c (p.step env (.configure level settings force)) :=
    h.configure level settings force
  have hreally : ¬ (s.root.isConfigured && !force) = true := by
    cases hset : s.root.isConfigured with
    | false => simp
    | true => simp [hnew hset]
  have houtlets : c.outlets = (Root.openSinks env asked p.outlets).1 :=
    h.outlets_configure level settings hreally
  rw [h.isConfigured_eq] at hreally
  rcases openSinks_cases hcwd asked p.outlets with
    ⟨o, file, hopen, hopens⟩ | ⟨o, e, hopen, hasked, -, hconsole, -⟩
  · rw [hopen] at houtlets
    dsimp only at houtlets
    rw [Prompt.step, Prompt.configure_of_opened hreally hopen] at hfollows
    refine .inl ⟨file, houtlets ▸ hopens, hfollows.level_eq, hfollows.isConfigured_eq, hfollows.sinks_eq,
      fun during hduring => ?_⟩
    have hset : ({ p with
        level := asked.level, isConfigured := true, sinks := sinksOf asked.console file,
        outlets := o } : Prompt).isConfigured = true := rfl
    have hend : ((c.run env during).step env .shutDown).outlets = _ :=
      (hfollows.run during).outlets_stopListener
    rw [hend, houtlets]
    exact Prompt.delivers_run hset rfl hduring
  · rw [hopen] at houtlets
    dsimp only at houtlets
    rw [Prompt.step, Prompt.configure_of_refused hreally hopen] at hfollows
    refine .inr ⟨hasked, ?_, hfollows.isConfigured_eq.trans h.isConfigured_eq.symm,
      by rw [houtlets, hconsole]⟩
    rcases hfollows.attached with hidle | ⟨-, l, hactive⟩
    · exact hidle.listener_eq
    · exact absurd hactive.sinks_eq hactive.sinks_ne_nil

/-- A working directory with nothing in it. -/
def emptyOutlets : Outlets := ⟨⟨[(["work"], .directory)]⟩, "", ""⟩

/-- Settings of a small file that keeps one old file. -/
def smallSettings : LogSettings := { file := some "app.log", limit := 40, backups := 1 }

/-- The file that these settings ask for. -/
def smallFile : RotatingFile := ⟨"/work/app.log", 40, 1⟩

/-- Records of which the second does not reach the level, the first of them delivered early. -/
def someActions : List Action :=
  let time := "2000-01-01T00:00:00"
  [.log ⟨20, "tfsynth", "first", time⟩, .log ⟨10, "tfsynth", "hidden", time⟩, .deliver,
    .log ⟨30, "", "second", time⟩, .log ⟨40, "tfsynth", "third", time⟩]

/-- The environment of the working directory. -/
def workEnvironment : Environment := ⟨"/work", []⟩

private theorem absolute_small : Path.absolute workEnvironment "app.log" = "/work/app.log" := by
  decide +kernel

private theorem fileAt_small :
    (smallSettings.withLevel (.text " info")).fileAt workEnvironment "app.log" =
    smallFile := by
  rw [LogSettings.fileAt, absolute_small]
  rfl

private theorem receives_small : emptyOutlets.files.Receives workEnvironment smallFile.path :=
  @FileTree.receives_of_locate _ _ _ "/work" "/" (by decide) (by decide +kernel) (by decide +kernel)
    (by decide +kernel) (by decide +kernel) (by decide +kernel)

private theorem openSinks_small :
    Root.openSinks workEnvironment (smallSettings.withLevel (.text " info")) emptyOutlets =
      (⟨⟨[(["work"], .directory), (["work", "app.log"], .file [])]⟩, "", ""⟩,
        .ok [.console, .file smallFile]) := by
  have hfollow : emptyOutlets.files.follow workEnvironment "/work/app.log" =
      .ok (["work", "app.log"], false) :=
    FileTree.follow_eq_ok.mpr ⟨by decide, by rfl⟩
  have hreceives : emptyOutlets.files.Receives workEnvironment
      (Path.absolute workEnvironment "app.log") := by
    rw [absolute_small]
    exact receives_small
  have hcwd : Path.isAbsolute workEnvironment.cwd = true := rfl
  obtain ⟨place, hplace, hopen⟩ :=
    openFile_of_receives hcwd hreceives (smallSettings.withLevel (.text " info"))
  rw [absolute_small, FileTree.writable_of_follow hfollow (by decide)] at hplace
  cases hplace
  rw [fileAt_small] at hopen
  have hfile : (smallSettings.withLevel (.text " info")).file = some "app.log" := rfl
  rw [Root.openSinks, hfile]
  dsimp only
  rw [hopen]
  rfl

private theorem openable_small :
    smallFile.Openable workEnvironment
      ⟨[(["work"], .directory), (["work", "app.log"], .file [])]⟩ := by
  have hages : smallFile.ages = 1 := rfl
  have hplaces : smallFile.placeOf 0 = ["work", "app.log"] ∧
      smallFile.placeOf 1 = ["work", "app.log.1"] := by decide +kernel
  refine ⟨?_, fun age hage => ?_, fun age hage => ?_⟩
  · have hsomewhere : Path.through (Path.start workEnvironment "app.log") "app.log" ≠ [] := by
      decide +kernel
    have hs := Path.spells_absolute rfl hsomewhere
    rw [absolute_small] at hs
    exact ⟨_, hs⟩
  · obtain rfl | rfl : age = 0 ∨ age = 1 := by omega
    · exact ⟨_, FileTree.follow_eq_ok.mpr ⟨by decide, rfl⟩⟩
    · exact ⟨_, FileTree.follow_eq_ok.mpr ⟨by decide +kernel, rfl⟩⟩
  · obtain rfl | rfl : age = 0 ∨ age = 1 := by omega
    · rw [hplaces.1]
      decide
    · rw [hplaces.2]
      decide

end Groundplan.Logging
