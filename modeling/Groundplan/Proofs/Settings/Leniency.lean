import Groundplan.Proofs.Datum.Likeness
import Groundplan.Proofs.Json.Numbers
import Groundplan.Proofs.Sequencing
import Groundplan.Proofs.Text.Numerals
import Groundplan.Settings.Basic

/-!
# Lenient settings

Where settings are checked leniently, a value that is missing or null, or a blank output directory,
means the default, and one that cannot be used becomes the default with a warning. Checking stops only
at digits that are given for an integer and are no numeral, and where a message would have to show an
integer with too many digits.
-/

namespace Groundplan.Settings

/-! ### What data mean for a setting -/

/-- What data mean for a setting: which ones stand for its default without a word, and which ones for
which value. -/
structure Meaning (α : Type) where
  fallback : α
  silent : Datum → Prop
  means : Datum → α → Prop

/-- How a setting comes of a datum, which may be missing, with the warnings about it. -/
inductive Meaning.Settles {α : Type} (m : Meaning α) : Option Datum → α → List String → Prop
  | missing : m.Settles none m.fallback []
  | silent {d : Datum} (h : m.silent d) : m.Settles (some d) m.fallback []
  | usable {d : Datum} {a : α} {notes : List String} (h : m.means d a) : m.Settles (some d) a notes
  | unusable {d : Datum} {notes : List String} (hsilent : ¬m.silent d) (hmeans : ∀ a, ¬m.means d a)
      (hnotes : notes ≠ []) : m.Settles (some d) m.fallback notes

/-- A text without the blanks around it. Where that must not be empty, blanks stand for the
default. -/
def textMeaning (fallback : String) (allowEmpty : Bool) : Meaning String where
  fallback := fallback
  silent d := d = .null ∨ ∃ s, d = .text s ∧ Text.strip s = "" ∧ allowEmpty = false
  means d a := ∃ s, d = .text s ∧ a = Text.strip s ∧ (a = "" → allowEmpty = true)

/-- The words for a truth value. -/
def truthWords (b : Bool) : List String :=
  if b then ["true", "1", "yes", "y", "on"] else ["false", "0", "no", "n", "off"]

/-- What stands for a truth value: itself, the number one or zero, or a word for it in letters of
either case and with any blanks around it. -/
inductive Truth : Datum → Bool → Prop
  | bool (b : Bool) : Truth (.bool b) b
  | int (b : Bool) : Truth (.int (Scalar.ofBool b)) b
  | float {x : Binary64} (b : Bool) (h : x.eqInt (Scalar.ofBool b) = true) : Truth (.scalar (.float x)) b
  | word {s : String} (b : Bool) (h : Text.smalls (Text.strip s) ∈ truthWords b) : Truth (.text s) b

/-- A truth value, or what stands for one. -/
def boolMeaning (fallback : Bool) : Meaning Bool where
  fallback := fallback
  silent d := d = .null
  means := Truth

/-- An integer between bounds, or a numeral for one. -/
def intMeaning (fallback low high : Int) : Meaning Int where
  fallback := fallback
  silent d := d = .null
  means d i := (low ≤ i ∧ i ≤ high) ∧ (d = .int i ∨ ∃ s n, d = .text s ∧ Text.Numeral s n ∧ i = n)

/-- The name of a level, in letters of either case and with any blanks around it. -/
def levelMeaning (fallback : String) : Meaning String where
  fallback := fallback
  silent d := d = .null
  means d a := ∃ s, d = .text s ∧ a = Text.capitals (Text.strip s) ∧ a ∈ levels.map (·.1)

/-- What checking leniently stops at where an integer is asked for: digits that are no numeral, and an
integer with more digits than a message can show. -/
inductive Balking : Datum → Prop
  | digits {s : String} (hdigits : Text.isDigits (Text.strip s) = true)
      (h : ∀ n, ¬Text.Numeral s n) : Balking (.text s)
  | long {i : Int} (h : Json.isLong (.int i) = true) : Balking (.int i)

/-! ### Checking one setting -/

section Checks

variable {α : Type} {m : Meaning α} {d : Datum}

private theorem failsElse_refuse (hsilent : ¬m.silent d) (hmeans : ∀ a, ¬m.means d a)
    (notes : List String) (fault : SettingFault) :
    FailsElse False (fun r => m.Settles (some d) r.1 r.2) (refuse false m.fallback notes fault) :=
  .answer id (.unusable hsilent hmeans (by simp))

/-- A text is always settled. -/
private theorem failsElse_checkText (field fallback : String) (allowEmpty : Bool) (d : Datum) :
    FailsElse False (fun r => (textMeaning fallback allowEmpty).Settles (some d) r.1 r.2)
      (checkText false field fallback allowEmpty d) := by
  unfold checkText
  split
  · exact .answer id (.silent (.inl rfl))
  · next s =>
    by_cases hempty : Text.strip s = "" ∧ allowEmpty = false
    · obtain ⟨hstrip, rfl⟩ := hempty
      rw [hstrip]
      exact .answer id (.silent (.inr ⟨s, rfl, hstrip, rfl⟩))
    · have hkept : ((Text.strip s).isEmpty && !allowEmpty) = false := by
        simpa [String.isEmpty_iff] using hempty
      simp only [hkept]
      exact .answer id (.usable ⟨s, rfl, rfl, by simpa using hempty⟩)
  · next hnull htext =>
    refine failsElse_refuse (m := textMeaning fallback allowEmpty) ?_ ?_ _ _
    · rintro (h | ⟨s, h, -⟩)
      · exact hnull h
      · exact htext s h
    · rintro a ⟨s, h, -⟩
      exact htext s h

private theorem mem_truthWords {s : String} {b : Bool} (h : boolOfWord? s = some b) :
    Text.smalls (Text.strip s) ∈ truthWords b := by
  unfold boolOfWord? at h
  dsimp only at h
  split at h
  · next hword =>
    cases h
    exact List.contains_iff_mem.mp hword
  · split at h
    · next hword =>
      cases h
      exact List.contains_iff_mem.mp hword
    · cases h

private theorem not_mem_truthWords {s : String} (h : boolOfWord? s = none) (b : Bool) :
    Text.smalls (Text.strip s) ∉ truthWords b := by
  unfold boolOfWord? at h
  dsimp only at h
  split at h
  · cases h
  · next htrue =>
    split at h
    · cases h
    · next hfalse =>
      rw [List.contains_iff_mem] at htrue hfalse
      cases b
      · exact hfalse
      · exact htrue

private theorem truth_of_boolOfNumber? {d : Datum} {b : Bool} {number : String}
    (h : boolOfNumber? d = some (b, number)) : Truth d b := by
  unfold boolOfNumber? at h
  split at h
  · next i =>
    split at h
    · next hi =>
      rcases hi with rfl | rfl
      · cases h
        exact .int false
      · cases h
        exact .int true
    · cases h
  · next x =>
    split at h
    · next hx =>
      obtain ⟨rfl, -⟩ := Prod.mk.inj (Option.some.inj h)
      cases hone : x.eqInt 1 with
      | true => exact .float true hone
      | false =>
        rw [hone, Bool.or_false] at hx
        exact .float false hx
    · cases h
  · cases h

private theorem no_truth_of_boolOfNumber? {d : Datum} (h : boolOfNumber? d = none)
    (hbool : ∀ b, d ≠ .bool b) (htext : ∀ s, d ≠ .text s) (b : Bool) : ¬Truth d b := by
  intro htruth
  cases htruth with
  | bool b => exact hbool b rfl
  | int b => cases b <;> cases h
  | @float x b hx =>
    have hsome : (x.eqInt 0 || x.eqInt 1) = true := by
      cases b
      · exact Bool.or_eq_true_iff.mpr (.inl hx)
      · exact Bool.or_eq_true_iff.mpr (.inr hx)
    rw [boolOfNumber?, if_pos hsome] at h
    cases h
  | @word s b => exact htext s rfl

/-- A truth value is always settled. -/
private theorem failsElse_checkBool (field : String) (fallback : Bool) (d : Datum) :
    FailsElse False (fun r => (boolMeaning fallback).Settles (some d) r.1 r.2)
      (checkBool false field fallback d) := by
  unfold checkBool
  dsimp only
  split
  · next b => exact .answer id (.usable (.bool b))
  · exact .answer id (.silent rfl)
  · next s =>
    rw [if_neg Bool.false_ne_true]
    cases hword : boolOfWord? s with
    | some b => exact .answer id (.usable (.word b (mem_truthWords hword)))
    | none =>
      refine failsElse_refuse (m := boolMeaning fallback) (d := .text s) nofun ?_ _ _
      rintro b ⟨⟩
      next h => exact not_mem_truthWords hword b h
  · next hbool hnull htext =>
    rw [if_neg Bool.false_ne_true]
    cases hnumber : boolOfNumber? d with
    | some r => exact .answer id (.usable (truth_of_boolOfNumber? hnumber))
    | none =>
      exact failsElse_refuse (m := boolMeaning fallback) hnull
        (no_truth_of_boolOfNumber? hnumber hbool htext) _ _

/-- The name of a level is always settled. -/
private theorem failsElse_checkLevel (fallback : String) (d : Datum) :
    FailsElse False (fun r => (levelMeaning fallback).Settles (some d) r.1 r.2)
      (checkLevel false fallback d) := by
  have hlevel (name : String) :
      (levels.any fun l => l.1 == name) = true ↔ name ∈ levels.map (·.1) := by
    simp only [List.any_eq_true, beq_iff_eq, List.mem_map]
  unfold checkLevel
  split
  · exact .answer id (.silent rfl)
  · next s =>
    dsimp only
    split
    · next hname => exact .answer id (.usable ⟨s, rfl, rfl, (hlevel _).mp hname⟩)
    · next hname =>
      refine failsElse_refuse (m := levelMeaning fallback) (d := .text s) nofun ?_ _ _
      rintro a ⟨t, ht, rfl, ha⟩
      cases ht
      exact hname ((hlevel _).mpr ha)
  · next hnull htext =>
    exact failsElse_refuse (m := levelMeaning fallback) hnull (fun _ ⟨s, hs, _⟩ => htext s hs) _ _

/-! An integer in the bounds of a setting has few digits, and so has one that a numeral stands for; so
only integers out of bounds that are given as such can have too many. -/

private theorem isLong_of_lt {i : Int} (hlow : 0 ≤ i) (hhigh : i < 10 ^ 9) :
    Json.isLong (.int i) = false := by
  obtain ⟨n, rfl⟩ := Int.eq_ofNat_of_zero_le hlow
  have hn : n < 10 ^ 9 := by omega
  exact Json.isLong_ofNat (hn.trans_le (Nat.pow_le_pow_right (by decide) (by decide)))

variable {low high : Int}

private theorem failsElse_checkRange (hlow : 0 ≤ low) (hhigh : high < 10 ^ 9)
    (field : String) (fallback : Int) (notes : List String) {i : Int} (hsilent : d ≠ .null)
    (hmeans : ∀ a, (intMeaning fallback low high).means d a ↔ (low ≤ a ∧ a ≤ high) ∧ a = i) :
    FailsElse (Json.isLong (.int i) = true)
      (fun r => (intMeaning fallback low high).Settles (some d) r.1 r.2)
      (checkRange false field fallback low high notes i) := by
  unfold checkRange
  split
  · next hrange =>
    have hshort := isLong_of_lt (hlow.trans hrange.1) (hrange.2.trans_lt hhigh)
    exact .answer (by simp [hshort]) (.usable ((hmeans i).mpr ⟨hrange, rfl⟩))
  · next hrange =>
    split
    · next hlong => exact .failure hlong
    · next hlong =>
      have hnone (a : Int) : ¬(intMeaning fallback low high).means d a := by
        rw [hmeans]
        rintro ⟨ha, rfl⟩
        exact hrange ha
      exact (failsElse_refuse (m := intMeaning fallback low high) hsilent hnone _ _).congr
        (iff_of_false id hlong)

private theorem failsElse_checkInt_digits (hlow : 0 ≤ low) (hhigh : high < 10 ^ 9)
    (field : String) (fallback : Int) {s : String} (hdigits : Text.isDigits (Text.strip s) = true) :
    FailsElse (Balking (.text s))
      (fun r => (intMeaning fallback low high).Settles (some (.text s)) r.1 r.2)
      (checkInt false field fallback low high (.text s)) := by
  unfold checkInt
  simp only [hdigits, Bool.not_true, Bool.or_self, Bool.false_eq_true, if_false]
  cases hread : Text.readDigits (Text.strip s).toList with
  | ok n =>
    have hn : Text.Numeral s n := (Text.numeral_iff hdigits).mpr hread
    have hmeans (a : Int) :
        (intMeaning fallback low high).means (.text s) a ↔ (low ≤ a ∧ a ≤ high) ∧ a = n := by
      refine and_congr_right fun _ => ⟨?_, fun h => .inr ⟨s, n, rfl, hn, h⟩⟩
      rintro (h | ⟨_, n', h, hn', rfl⟩)
      · cases h
      · cases h
        have hread' := (Text.numeral_iff hdigits).mp hn'
        rw [hread] at hread'
        exact congrArg _ (Except.ok.inj hread').symm
    refine (failsElse_checkRange (d := .text s) hlow hhigh field fallback _ nofun hmeans).congr
      (iff_of_false ?_ ?_)
    · have hshort : Json.isLong (.int n) = false := Json.isLong_ofNat hn.lt
      simp [hshort]
    · rintro (⟨-, h⟩ | -)
      exact h n hn
  | error e =>
    have hbalking : Balking (.text s) :=
      .digits hdigits fun n hn => by simpa [hread] using (Text.numeral_iff hdigits).mp hn
    cases e with
    | tooLong digits => exact .failure hbalking
    | notDecimal => exact .failure hbalking

private theorem checkInt_eq_refuse (field : String) (fallback : Int) (hnull : d ≠ .null)
    (hint : ¬∃ i, d = .int i) (hdigits : ¬∃ s, d = .text s ∧ Text.isDigits (Text.strip s) = true) :
    checkInt false field fallback low high d =
      refuse false fallback [] (.wrongType field "int" d.typeName) := by
  unfold checkInt
  dsimp only
  split
  · exact absurd rfl hnull
  · exact absurd ⟨_, rfl⟩ hint
  · next s =>
    have hother : Text.isDigits (Text.strip s) = false :=
      Bool.eq_false_iff.mpr fun h => hdigits ⟨s, rfl, h⟩
    rw [hother]
    rfl
  · rfl

/-- An integer is settled unless checking stops at it. -/
private theorem failsElse_checkInt (hlow : 0 ≤ low) (hhigh : high < 10 ^ 9)
    (field : String) (fallback : Int) (d : Datum) :
    FailsElse (Balking d) (fun r => (intMeaning fallback low high).Settles (some d) r.1 r.2)
      (checkInt false field fallback low high d) := by
  -- Checking can stop at digits and at integers only; the rest is null or refused.
  by_cases hdigits : ∃ s, d = .text s ∧ Text.isDigits (Text.strip s) = true
  · obtain ⟨s, rfl, hdigits⟩ := hdigits
    exact failsElse_checkInt_digits hlow hhigh field fallback hdigits
  by_cases hint : ∃ i, d = .int i
  · obtain ⟨i, rfl⟩ := hint
    have hmeans (a : Int) :
        (intMeaning fallback low high).means (.int i) a ↔ (low ≤ a ∧ a ≤ high) ∧ a = i := by
      refine and_congr_right fun _ => ⟨?_, fun h => .inl (h ▸ rfl)⟩
      rintro (h | ⟨_, _, h, -⟩)
      · cases h
        rfl
      · cases h
    refine (failsElse_checkRange (d := .int i) hlow hhigh field fallback [] nofun hmeans).congr
      ⟨.long, ?_⟩
    rintro (- | h)
    exact h
  by_cases hnull : d = .null
  · subst hnull
    exact .answer nofun (.silent rfl)
  have hmeans (a : Int) : ¬(intMeaning fallback low high).means d a := by
    rintro ⟨-, h | ⟨s, n, h, hn, -⟩⟩
    · exact hint ⟨a, h⟩
    · exact hdigits ⟨s, h, hn.isDigits⟩
  rw [checkInt_eq_refuse field fallback hnull hint hdigits]
  refine (failsElse_refuse (m := intMeaning fallback low high) hnull hmeans _ _).congr
    (iff_of_false id ?_)
  rintro (⟨h, -⟩ | -)
  · exact hdigits ⟨_, rfl, h⟩
  · exact hint ⟨_, rfl⟩

end Checks

/-! ### Checking all settings -/

/-- The names of the settings that are integers. -/
def intNames : List String := ["indent", "log_max_bytes", "log_backup_count"]

/-- What checking leniently stops at: an integer setting that it stops at, and a key that is no
setting and has an integer with more digits than a message can show. -/
inductive Balks : Datum → Prop
  | setting {es : Entries Datum} {name : String} {d : Datum} (hname : name ∈ intNames)
      (hd : es.get? (.text name) = some d) (h : Balking d) : Balks (.mapping false es)
  | key {es : Entries Datum} {k : Key} (hk : k ∈ es.keys) (hunknown : defaultEntries.has k = false)
      (h : Json.keyHasLong k = true) : Balks (.mapping false es)

/-- Settings that come of a datum, with the warnings: of a mapping, each comes of what is under its
name, and the warnings are those about names that are no settings and then those about each setting.
Anything but a mapping stands for the defaults, with a warning. -/
inductive Settled : Datum → Settings → List String → Prop
  | mapping {es : Entries Datum} {s : Settings} {names w₁ w₂ w₃ w₄ w₅ w₆ w₇ : List String}
      (hnames : names.length = (es.keys.filter fun k => !defaultEntries.has k).length)
      (outputDir : (textMeaning defaults.outputDir false).Settles (es.get? (.text "output_dir"))
        s.outputDir w₁)
      (logFile : (textMeaning defaults.logFile true).Settles (es.get? (.text "log_file")) s.logFile w₂)
      (emitMetadata : (boolMeaning defaults.emitMetadata).Settles (es.get? (.text "emit_metadata"))
        s.emitMetadata w₃)
      (indent : (intMeaning defaults.indent 0 maxIndent).Settles (es.get? (.text "indent")) s.indent w₄)
      (logMaxBytes : (intMeaning defaults.logMaxBytes 1 maxLogBytes).Settles
        (es.get? (.text "log_max_bytes")) s.logMaxBytes w₅)
      (logBackupCount : (intMeaning defaults.logBackupCount 0 maxLogBackups).Settles
        (es.get? (.text "log_backup_count")) s.logBackupCount w₆)
      (logLevel : (levelMeaning defaults.logLevel).Settles (es.get? (.text "log_level")) s.logLevel w₇) :
      Settled (.mapping false es) s (names ++ (w₁ ++ w₂ ++ w₃ ++ w₄ ++ w₅ ++ w₆ ++ w₇))
  | other {d : Datum} {notes : List String} (hd : ∀ es, d ≠ .mapping false es) (hnotes : notes ≠ []) :
      Settled d defaults notes

private theorem failsElse_checkNames (naming : Naming) (es : Entries Datum) :
    FailsElse (∃ k ∈ es.keys.filter fun k => !defaultEntries.has k, Json.keyHasLong k = true)
      (fun names => names.length = (es.keys.filter fun k => !defaultEntries.has k).length)
      (checkNames naming false es) := by
  refine FailsElse.mapM fun k _ => ?_
  unfold unknownName
  split
  · next hlong => exact .failure hlong
  · next hlong => exact .answer hlong trivial

/-- Only texts are names of settings. -/
private theorem exists_text_of_known {es : Entries Datum} {k : Key}
    (hk : k ∈ Entries.keys (es.filter fun (k, _) => defaultEntries.has k)) : ∃ s, k = .text s := by
  obtain ⟨e, he, rfl⟩ := List.mem_map.mp hk
  obtain ⟨d, hd, hsame⟩ := List.any_eq_true.mp (List.mem_filter.mp he).2
  have htexts : ∀ d ∈ defaultEntries, ∃ s, d.1 = .text s := by simp [defaultEntries, toEntries]
  obtain ⟨s, hs⟩ := htexts d hd
  exact ⟨s, Key.eq_text_of_same (hs ▸ hsame)⟩

/-- Settings with a mapping's over the defaults are fields. -/
theorem fields_overlay (es : Entries Datum) : (overlay es).Fields :=
  Entries.Fields.setAll (by decide) fun _ => exists_text_of_known

/-- Under the name of a setting there is what was given for it, or else its default. -/
theorem get?_overlay {es : Entries Datum} (hes : es.Distinct) {name : String}
    (hname : defaultEntries.has (.text name) = true) :
    (overlay es).get? (.text name) = (es.get? (.text name)).or (defaultEntries.get? (.text name)) := by
  have hfields : Entries.Fields (es.filter fun (k, _) => defaultEntries.has k) :=
    ⟨fun _ => exists_text_of_known, Entries.textsOnce_of_distinct (hes.sublist List.filter_sublist)⟩
  have hfilter : Entries.get? (es.filter fun (k, _) => defaultEntries.has k) (.text name) =
      es.get? (.text name) := by
    rw [Entries.get?, Entries.get?, List.find?_filter]
    congr 2
    funext e
    cases hsame : (Key.text name).same e.1 with
    | false => simp
    | true => simp [Key.same_text_eq_true hsame, hname]
  rw [overlay, Entries.get?_setAll hfields, hfilter]

/-- A check that accepts the default of a setting settles the setting, given or not. -/
private theorem failsElse_setting {α : Type} {m : Meaning α} {fails : Datum → Prop}
    {check : Datum → Checked α} {es : Entries Datum} (hes : es.Distinct) (name : String) {d₀ : Datum}
    (hcheck : ∀ d, FailsElse (fails d) (fun r => m.Settles (some d) r.1 r.2) (check d))
    (hdefault : defaultEntries.get? (.text name) = some d₀) (hfallback : check d₀ = accept m.fallback) :
    FailsElse (∃ d, es.get? (.text name) = some d ∧ fails d)
      (fun r => m.Settles (es.get? (.text name)) r.1 r.2)
      (check (((overlay es).get? (.text name)).getD .null)) := by
  have hknown : defaultEntries.has (.text name) = true := by
    rw [Entries.has_eq_isSome_get?, hdefault]
    rfl
  rw [get?_overlay hes hknown, hdefault]
  cases es.get? (.text name) with
  | none =>
    have hgiven : check ((none.or (some d₀)).getD .null) = accept m.fallback := hfallback
    rw [hgiven]
    exact .answer (by simp) .missing
  | some d => exact (hcheck d).congr (by simp)

private theorem checkLevel_default :
    checkLevel false defaults.logLevel (.text defaults.logLevel) = accept defaults.logLevel := by
  have hname : Text.capitals (Text.strip defaults.logLevel) = defaults.logLevel := by decide +kernel
  rw [checkLevel, hname]
  rfl

/-- All settings are settled unless checking stops at one of them. -/
private theorem failsElse_checkEntries {es : Entries Datum} (hes : es.Distinct) :
    FailsElse (∃ name ∈ intNames, ∃ d, es.get? (.text name) = some d ∧ Balking d)
      (fun r => ∀ names : List String,
        names.length = (es.keys.filter fun k => !defaultEntries.has k).length →
          Settled (.mapping false es) r.1 (names ++ r.2))
      (checkEntries false (overlay es)) := by
  have houtputDir := failsElse_setting hes "output_dir"
    (failsElse_checkText "output_dir" defaults.outputDir false) rfl rfl
  have hlogFile := failsElse_setting hes "log_file"
    (failsElse_checkText "log_file" defaults.logFile true) rfl rfl
  have hemitMetadata := failsElse_setting hes "emit_metadata"
    (failsElse_checkBool "emit_metadata" defaults.emitMetadata) rfl rfl
  have hindent := failsElse_setting hes "indent"
    (failsElse_checkInt (by decide : (0 : Int) ≤ 0) (by decide : maxIndent < _) "indent"
      defaults.indent) rfl rfl
  have hlogMaxBytes := failsElse_setting hes "log_max_bytes"
    (failsElse_checkInt (by decide : (0 : Int) ≤ 1) (by decide : maxLogBytes < _) "log_max_bytes"
      defaults.logMaxBytes) rfl rfl
  have hlogBackupCount := failsElse_setting hes "log_backup_count"
    (failsElse_checkInt (by decide : (0 : Int) ≤ 0) (by decide : maxLogBackups < _) "log_backup_count"
      defaults.logBackupCount) rfl rfl
  have hlogLevel := failsElse_setting hes "log_level" (failsElse_checkLevel defaults.logLevel) rfl
    checkLevel_default
  have hall := houtputDir.bind fun r₁ h₁ => hlogFile.bind fun r₂ h₂ => hemitMetadata.bind fun r₃ h₃ =>
    hindent.bind fun r₄ h₄ => hlogMaxBytes.bind fun r₅ h₅ => hlogBackupCount.bind fun r₆ h₆ =>
      hlogLevel.bind_pure (g := fun r₇ => ((⟨r₁.1, r₄.1, r₃.1, r₇.1, r₂.1, r₅.1, r₆.1⟩ : Settings),
        r₁.2 ++ r₂.2 ++ r₃.2 ++ r₄.2 ++ r₅.2 ++ r₆.2 ++ r₇.2))
      (Q := fun r => ∀ names : List String,
        names.length = (es.keys.filter fun k => !defaultEntries.has k).length →
          Settled (.mapping false es) r.1 (names ++ r.2))
      fun r₇ h₇ names hnames => .mapping hnames h₁ h₂ h₃ h₄ h₅ h₆ h₇
  -- Of the seven checks only those of the integers can fail.
  exact hall.congr (by simp [intNames])

/-- Checking leniently settles all settings, unless it stops at one of them or at the name of
another. -/
theorem failsElse_check (naming : Naming) {d : Datum} (hd : d.entries.Distinct) :
    FailsElse (Balks d) (fun r => Settled d r.1 r.2) (check naming false d) := by
  cases d with
  | mapping fixed es =>
    cases fixed with
    | true => exact .answer nofun (.other nofun (by simp))
    | false =>
      have hes : Entries.Distinct es := hd
      have hall := (failsElse_checkNames naming es).bind fun names hnames =>
        (failsElse_checkEntries hes).bind_pure (g := fun r => (r.1, names ++ r.2))
          (Q := fun r => Settled (.mapping false es) r.1 r.2) fun _ hr => hr names hnames
      refine hall.congr ⟨?_, ?_⟩
      · rintro (⟨k, hk, hlong⟩ | ⟨name, hname, d, hd, h⟩)
        · obtain ⟨hk, hunknown⟩ := List.mem_filter.mp hk
          exact .key hk (by simpa using hunknown) hlong
        · exact .setting hname hd h
      · rintro (⟨hname, hd, h⟩ | ⟨hk, hunknown, hlong⟩)
        · exact .inr ⟨_, hname, _, hd, h⟩
        · exact .inl ⟨_, List.mem_filter.mpr ⟨hk, by simp [hunknown]⟩, hlong⟩
  | _ => exact .answer nofun (.other nofun (by simp))

end Groundplan.Settings
