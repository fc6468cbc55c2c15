import Groundplan.Proofs.Sequencing
import Groundplan.Settings.Basic
import Mathlib.Control.Monad.Basic

/-!
# Normal settings

Checking makes normal settings of whatever it is given: all of them in their order, texts without
blanks around them, integers within their bounds and the name of a level in capitals. Each normal
setting is accepted as it is, so settings that were checked are left as they are by every further
check.
-/

namespace Groundplan.Settings

/-! ### Checking one setting -/

section Checks

variable {α : Type} {strict : Bool} {d : Datum} {notes : List String}

/-- What is refused becomes the fallback where checking is lenient, with a warning. -/
theorem refuse_eq_ok {fallback : α} {fault : SettingFault} {r : α × List String} :
    refuse strict fallback notes fault = .ok r ↔
      strict = false ∧ r = (fallback, notes ++ [fault.message ++ " Using fallback."]) := by
  cases strict with
  | true => simp [refuse]
  | false => simp [refuse, eq_comm]

variable {field : String}

/-- What comes of a text is the fallback, or has no blanks around it. -/
theorem checkText_gives {fallback a : String} {allowEmpty : Bool}
    (h : checkText strict field fallback allowEmpty d = .ok (a, notes)) :
    a = fallback ∨ Text.strip a = a ∧ (a = "" → allowEmpty = true) := by
  unfold checkText at h
  split at h
  · cases h
    exact .inl rfl
  · next s =>
    dsimp only [accept] at h
    split at h
    · cases h
      exact .inl rfl
    · next hkept =>
      cases h
      refine .inr ⟨Text.strip_strip s, fun hempty => ?_⟩
      simpa [hempty] using hkept
  · exact .inl (Prod.mk.inj (refuse_eq_ok.mp h).2).1

section Integers

variable {fallback low high : Int}

theorem checkRange_gives {i a : Int} {before : List String}
    (h : checkRange strict field fallback low high before i = .ok (a, notes)) :
    a = fallback ∨ low ≤ a ∧ a ≤ high := by
  unfold checkRange at h
  split at h
  · next hrange =>
    cases h
    exact .inr hrange
  · split at h
    · cases h
    · exact .inl (Prod.mk.inj (refuse_eq_ok.mp h).2).1

/-- What comes of an integer is the fallback, or within its bounds. -/
theorem checkInt_gives {a : Int}
    (h : checkInt strict field fallback low high d = .ok (a, notes)) :
    a = fallback ∨ low ≤ a ∧ a ≤ high := by
  unfold checkInt at h
  dsimp only at h
  split at h
  · cases h
    exact .inl rfl
  · exact checkRange_gives h
  · split at h
    · exact .inl (Prod.mk.inj (refuse_eq_ok.mp h).2).1
    · split at h
      · exact checkRange_gives h
      · cases h
      · cases h
  · exact .inl (Prod.mk.inj (refuse_eq_ok.mp h).2).1

end Integers

/-- What comes of the name of a level is the fallback, or the name of a level. -/
theorem checkLevel_gives {fallback a : String}
    (h : checkLevel strict fallback d = .ok (a, notes)) :
    a = fallback ∨ a ∈ levels.map (·.1) := by
  unfold checkLevel at h
  split at h
  · cases h
    exact .inl rfl
  · dsimp only [accept] at h
    split at h
    · next hname =>
      cases h
      obtain ⟨l, hl, hname⟩ := List.any_eq_true.mp hname
      exact .inr (List.mem_map.mpr ⟨l, hl, beq_iff_eq.mp hname⟩)
    · exact .inl (Prod.mk.inj (refuse_eq_ok.mp h).2).1
  · exact .inl (Prod.mk.inj (refuse_eq_ok.mp h).2).1

/-- A text without blanks around it is accepted as it is, the empty one where it is allowed. -/
theorem checkText_of_stripped {a fallback : String} {allowEmpty : Bool} (hstrip : Text.strip a = a)
    (hempty : a = "" → allowEmpty = true) :
    checkText strict field fallback allowEmpty (.text a) = accept a := by
  have hkept : (a.isEmpty && !allowEmpty) = false := by
    cases allowEmpty with
    | true => simp
    | false => simpa [String.isEmpty_iff] using fun h => absurd (hempty h) Bool.false_ne_true
  simp only [checkText, hstrip, hkept, Bool.false_eq_true, if_false]

/-- An integer within its bounds is accepted as it is. -/
theorem checkInt_of_range {i fallback low high : Int} (h : low ≤ i ∧ i ≤ high) :
    checkInt strict field fallback low high (.int i) = accept i := by
  simp only [checkInt, checkRange, if_pos h, accept]

/-- The name of a level in capitals is accepted as it is. -/
theorem checkLevel_of_mem {a fallback : String} (h : a ∈ levels.map (·.1)) :
    checkLevel strict fallback (.text a) = accept a := by
  have hcapitals : ∀ name ∈ levels.map (·.1), Text.capitals (Text.strip name) = name := by
    decide +kernel
  have hknown : (levels.any fun l => l.1 == a) = true := by
    obtain ⟨l, hl, rfl⟩ := List.mem_map.mp h
    exact List.any_eq_true.mpr ⟨l, hl, beq_self_eq_true _⟩
  simp only [checkLevel, hcapitals a h, hknown, if_true]

end Checks

/-! ### Checking all settings -/

/-- What entries give for the setting of a name, if anything. -/
def given (es : Entries Datum) (name : String) : Datum := (es.get? (.text name)).getD .null

/-- Settings of which each passes its check, with the warnings about all of them. -/
inductive Passes (strict : Bool) (es : Entries Datum) : Settings → List String → Prop
  | intro {s : Settings} {w₁ w₂ w₃ w₄ w₅ w₆ w₇ : List String}
      (outputDir : checkText strict "output_dir" defaults.outputDir false (given es "output_dir") =
        .ok (s.outputDir, w₁))
      (logFile : checkText strict "log_file" "" true (given es "log_file") = .ok (s.logFile, w₂))
      (emitMetadata : checkBool strict "emit_metadata" defaults.emitMetadata
        (given es "emit_metadata") = .ok (s.emitMetadata, w₃))
      (indent : checkInt strict "indent" defaults.indent 0 maxIndent (given es "indent") =
        .ok (s.indent, w₄))
      (logMaxBytes : checkInt strict "log_max_bytes" defaults.logMaxBytes 1 maxLogBytes
        (given es "log_max_bytes") = .ok (s.logMaxBytes, w₅))
      (logBackupCount : checkInt strict "log_backup_count" defaults.logBackupCount 0 maxLogBackups
        (given es "log_backup_count") = .ok (s.logBackupCount, w₆))
      (logLevel : checkLevel strict defaults.logLevel (given es "log_level") = .ok (s.logLevel, w₇)) :
      Passes strict es s (w₁ ++ w₂ ++ w₃ ++ w₄ ++ w₅ ++ w₆ ++ w₇)

/-- Checking gives the settings that pass, with the warnings about them. -/
theorem checkEntries_eq_ok {strict : Bool} {es : Entries Datum} {s : Settings} {notes : List String} :
    checkEntries strict es = .ok (s, notes) ↔ Passes strict es s notes := by
  constructor
  · intro h
    obtain ⟨⟨outputDir, w₁⟩, h₁, h⟩ := bind_eq_ok.mp h
    obtain ⟨⟨logFile, w₂⟩, h₂, h⟩ := bind_eq_ok.mp h
    obtain ⟨⟨emitMetadata, w₃⟩, h₃, h⟩ := bind_eq_ok.mp h
    obtain ⟨⟨indent, w₄⟩, h₄, h⟩ := bind_eq_ok.mp h
    obtain ⟨⟨logMaxBytes, w₅⟩, h₅, h⟩ := bind_eq_ok.mp h
    obtain ⟨⟨logBackupCount, w₆⟩, h₆, h⟩ := bind_eq_ok.mp h
    obtain ⟨⟨logLevel, w₇⟩, h₇, h⟩ := bind_eq_ok.mp h
    cases h
    exact .intro h₁ h₂ h₃ h₄ h₅ h₆ h₇
  · rintro ⟨h₁, h₂, h₃, h₄, h₅, h₆, h₇⟩
    exact bind_eq_ok.mpr ⟨_, h₁, bind_eq_ok.mpr ⟨_, h₂, bind_eq_ok.mpr ⟨_, h₃, bind_eq_ok.mpr ⟨_, h₄,
      bind_eq_ok.mpr ⟨_, h₅, bind_eq_ok.mpr ⟨_, h₆, bind_eq_ok.mpr ⟨_, h₇, rfl⟩⟩⟩⟩⟩⟩⟩

/-- All settings in their order, each in the form that checking gives it. -/
inductive Normal : Datum → Prop
  | intro {outputDir logLevel logFile : String} {indent logMaxBytes logBackupCount : Int}
      {emitMetadata : Bool} (houtputDir : outputDir ≠ "" ∧ Text.strip outputDir = outputDir)
      (hindent : 0 ≤ indent ∧ indent ≤ 8)
      (hlogLevel : logLevel ∈ ["DEBUG", "INFO", "WARNING", "WARN", "ERROR", "CRITICAL"])
      (hlogFile : Text.strip logFile = logFile)
      (hlogMaxBytes : 1 ≤ logMaxBytes ∧ logMaxBytes ≤ 104857600)
      (hlogBackupCount : 0 ≤ logBackupCount ∧ logBackupCount ≤ 50) :
      Normal (.mapping false
        [(.text "output_dir", .text outputDir), (.text "indent", .int indent),
          (.text "emit_metadata", .bool emitMetadata), (.text "log_level", .text logLevel),
          (.text "log_file", .text logFile), (.text "log_max_bytes", .int logMaxBytes),
          (.text "log_backup_count", .int logBackupCount)])

/-- The default settings are normal. -/
theorem normal_defaults : Normal defaults.toDatum :=
  .intro (by decide +kernel) (by decide) (by decide) rfl (by decide) (by decide)

/-- Settings that pass their checks are normal. -/
theorem Passes.normal {strict : Bool} {es : Entries Datum} {s : Settings} {notes : List String}
    (h : Passes strict es s notes) : Normal s.toDatum := by
  obtain ⟨houtputDir, hlogFile, -, hindent, hlogMaxBytes, hlogBackupCount, hlogLevel⟩ := h
  refine .intro ?_ ?_ ?_ ?_ ?_ ?_
  · rcases checkText_gives houtputDir with h | ⟨hstrip, hempty⟩
    · rw [h]
      decide +kernel
    · exact ⟨fun he => Bool.false_ne_true (hempty he), hstrip⟩
  · rcases checkInt_gives hindent with h | h
    · rw [h]
      decide
    · exact h
  · rcases checkLevel_gives hlogLevel with h | h
    · rw [h]
      decide
    · exact h
  · rcases checkText_gives hlogFile with h | ⟨hstrip, -⟩
    · rw [h]
      rfl
    · exact hstrip
  · rcases checkInt_gives hlogMaxBytes with h | h
    · rw [h]
      decide
    · exact h
  · rcases checkInt_gives hlogBackupCount with h | h
    · rw [h]
      decide
    · exact h

/-- What checking gives is normal. -/
theorem normal_of_check {naming : Naming} {strict : Bool} {d : Datum} {s : Settings}
    {notes : List String} (h : check naming strict d = .ok (s, notes)) : Normal s.toDatum := by
  unfold check at h
  split at h
  · obtain ⟨names, -, h⟩ := bind_eq_ok.mp h
    obtain ⟨⟨s', ws⟩, hs', h⟩ := bind_eq_ok.mp h
    cases h
    exact (checkEntries_eq_ok.mp hs').normal
  · dsimp only at h
    split at h
    · cases h
    · cases h
      exact normal_defaults

/-- Normal settings are accepted as they are. -/
theorem Normal.check_eq_ok {s : Settings} (h : Normal s.toDatum) (naming : Naming) (strict : Bool) :
    check naming strict s.toDatum = .ok (s, []) := by
  have hoverlay : overlay s.toEntries = s.toEntries := rfl
  have hpasses : Passes strict (overlay s.toEntries) s [] := by
    rw [hoverlay]
    cases h with
    | intro houtputDir hindent hlogLevel hlogFile hlogMaxBytes hlogBackupCount =>
      exact @Passes.intro strict s.toEntries s [] [] [] [] [] [] []
        (checkText_of_stripped houtputDir.2 fun he => absurd he houtputDir.1)
        (checkText_of_stripped hlogFile fun _ => rfl) rfl (checkInt_of_range hindent)
        (checkInt_of_range hlogMaxBytes) (checkInt_of_range hlogBackupCount)
        (checkLevel_of_mem hlogLevel)
  have hnames : checkNames naming strict s.toEntries = .ok [] := rfl
  exact bind_eq_ok.mpr ⟨[], hnames, bind_eq_ok.mpr ⟨_, checkEntries_eq_ok.mpr hpasses, rfl⟩⟩

/-- Whatever checking is given, strictly or leniently, the settings that it gives are normal, and
every further check gives just them, without a warning. -/
theorem check_normal {naming : Naming} {strict : Bool} {d : Datum} {s : Settings}
    {notes : List String} (h : check naming strict d = .ok (s, notes)) :
    Normal s.toDatum ∧
      ∀ naming' strict', check naming' strict' s.toDatum = .ok (s, []) :=
  have hnormal := normal_of_check h
  ⟨hnormal, hnormal.check_eq_ok⟩

/-- Settings of which all that are given need work. -/
def roughSettings : Entries Datum :=
  [(.text "log_level", .text " debug "), (.text "output_dir", .text "  build/out "),
    (.text "emit_metadata", .text "No"), (.text "indent", .text "04")]

/-- Rough settings become normal, with a warning about each of the two that are of another type. -/
theorem check_normal_rough :
    let s : Settings := ⟨"build/out", 4, false, "DEBUG", "", 1048576, 2⟩
    check .bare false (.mapping false roughSettings) =
        .ok (s, ["Field 'emit_metadata' converted from 'No' to False.",
          "Field 'indent' converted from '04' to int."]) ∧
      Normal s.toDatum ∧ ∀ naming' strict', check naming' strict' s.toDatum = .ok (s, []) := by
  intro s
  have h : check .bare false (.mapping false roughSettings) =
      .ok (s, ["Field 'emit_metadata' converted from 'No' to False.",
        "Field 'indent' converted from '04' to int."]) := by decide +kernel
  exact ⟨h, check_normal h⟩

end Groundplan.Settings
