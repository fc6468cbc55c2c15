import Groundplan.Proofs.Settings.Normality

/-!
# Strict settings

Strict checking accepts just what lenient checking accepts without a word, and makes the same
settings of it. Anything else it ends in a fault, which is about the first thing that it objects to:
data that are no mapping, a name that is no setting, a value of another type than its setting has,
an integer out of bounds or a level that there is not.
-/

namespace Groundplan.Settings

/-! ### Checking one setting both ways -/

section Checks

variable {α : Type} {field : String} {d : Datum}

/-- Strict checking gives what lenient checking gives without a word. -/
def Concur (check : Bool → Checked α) : Prop :=
  ∀ r, check true = .ok r ↔ check false = .ok r ∧ r.2 = []

theorem concur_accept (a : α) : Concur fun _ => accept a := by
  intro r
  refine (and_iff_left_of_imp fun h => ?_).symm
  cases h
  rfl

/-- What strict checking refuses and lenient checking warns of is accepted by neither. -/
private theorem concur_of_warned {check : Bool → Checked α} (hstrict : ∀ r, check true ≠ .ok r)
    (hlenient : ∀ r, check false = .ok r → r.2 ≠ []) : Concur check :=
  fun r => iff_of_false (hstrict r) fun h => hlenient r h.1 h.2

private theorem refuse_true_ne_ok {fallback : α} {notes : List String} {fault : SettingFault}
    {r : α × List String} : refuse true fallback notes fault ≠ .ok r := nofun

private theorem warned_of_refuse {fallback : α} {notes : List String} {fault : SettingFault}
    {r : α × List String} (h : refuse false fallback notes fault = .ok r) : r.2 ≠ [] := by
  rw [(refuse_eq_ok.mp h).2]
  simp

theorem concur_refuse (fallback : α) (notes : List String) (fault : SettingFault) :
    Concur fun strict => refuse strict fallback notes fault :=
  concur_of_warned (fun _ => refuse_true_ne_ok) fun _ => warned_of_refuse

theorem concur_checkText (field fallback : String) (allowEmpty : Bool) (d : Datum) :
    Concur fun strict => checkText strict field fallback allowEmpty d := by
  unfold checkText
  split
  · exact concur_accept _
  · exact concur_accept _
  · exact concur_refuse _ _ _

theorem concur_checkBool (field : String) (fallback : Bool) (d : Datum) :
    Concur fun strict => checkBool strict field fallback d := by
  unfold checkBool
  dsimp only
  split
  · exact concur_accept _
  · exact concur_accept _
  -- Words and numbers are refused strictly, and leniently they are converted with a warning at best.
  · refine concur_of_warned (fun _ => nofun) fun r h => ?_
    rw [if_neg Bool.false_ne_true] at h
    split at h
    · cases h
      simp
    · exact warned_of_refuse h
  · refine concur_of_warned (fun _ => nofun) fun r h => ?_
    rw [if_neg Bool.false_ne_true] at h
    split at h
    · cases h
      simp
    · exact warned_of_refuse h

private theorem warned_of_checkRange {fallback low high i : Int} {notes : List String}
    (hnotes : notes ≠ []) {r : Int × List String}
    (h : checkRange false field fallback low high notes i = .ok r) : r.2 ≠ [] := by
  unfold checkRange at h
  split at h
  · cases h
    exact hnotes
  · split at h
    · cases h
    · exact warned_of_refuse h

theorem concur_checkInt (field : String) (fallback low high : Int) (d : Datum) :
    Concur fun strict => checkInt strict field fallback low high d := by
  unfold checkInt
  dsimp only
  split
  · exact concur_accept _
  · unfold checkRange
    split
    · exact concur_accept _
    · split
      · exact concur_of_warned (fun _ => nofun) fun _ => nofun
      · exact concur_refuse _ _ _
  -- Digits are refused strictly, and leniently they are converted with a warning at best.
  · refine concur_of_warned (fun _ => nofun) fun r h => ?_
    split at h
    · exact warned_of_refuse h
    · split at h
      · exact warned_of_checkRange (by simp) h
      · cases h
      · cases h
  · exact concur_refuse _ _ _

theorem concur_checkLevel (fallback : String) (d : Datum) :
    Concur fun strict => checkLevel strict fallback d := by
  unfold checkLevel
  split
  · exact concur_accept _
  · dsimp only
    split
    · exact concur_accept _
    · exact concur_refuse _ _ _
  · exact concur_refuse _ _ _

end Checks

/-! ### Checking all settings both ways -/

theorem passes_true_iff {es : Entries Datum} {s : Settings} {notes : List String} :
    Passes true es s notes ↔ Passes false es s notes ∧ notes = [] := by
  constructor
  · rintro ⟨h₁, h₂, h₃, h₄, h₅, h₆, h₇⟩
    obtain ⟨h₁, rfl⟩ := (concur_checkText _ _ _ _ _).mp h₁
    obtain ⟨h₂, rfl⟩ := (concur_checkText _ _ _ _ _).mp h₂
    obtain ⟨h₃, rfl⟩ := (concur_checkBool _ _ _ _).mp h₃
    obtain ⟨h₄, rfl⟩ := (concur_checkInt _ _ _ _ _ _).mp h₄
    obtain ⟨h₅, rfl⟩ := (concur_checkInt _ _ _ _ _ _).mp h₅
    obtain ⟨h₆, rfl⟩ := (concur_checkInt _ _ _ _ _ _).mp h₆
    obtain ⟨h₇, rfl⟩ := (concur_checkLevel _ _ _).mp h₇
    exact ⟨.intro h₁ h₂ h₃ h₄ h₅ h₆ h₇, rfl⟩
  · rintro ⟨⟨h₁, h₂, h₃, h₄, h₅, h₆, h₇⟩, hnotes⟩
    simp only [List.append_eq_nil_iff] at hnotes
    obtain ⟨⟨⟨⟨⟨⟨rfl, rfl⟩, rfl⟩, rfl⟩, rfl⟩, rfl⟩, rfl⟩ := hnotes
    exact .intro ((concur_checkText _ _ _ _ _).mpr ⟨h₁, rfl⟩)
      ((concur_checkText _ _ _ _ _).mpr ⟨h₂, rfl⟩) ((concur_checkBool _ _ _ _).mpr ⟨h₃, rfl⟩)
      ((concur_checkInt _ _ _ _ _ _).mpr ⟨h₄, rfl⟩) ((concur_checkInt _ _ _ _ _ _).mpr ⟨h₅, rfl⟩)
      ((concur_checkInt _ _ _ _ _ _).mpr ⟨h₆, rfl⟩) ((concur_checkLevel _ _ _).mpr ⟨h₇, rfl⟩)

theorem concur_checkEntries (es : Entries Datum) : Concur fun strict => checkEntries strict es :=
  fun (s, notes) => by
    dsimp only
    rw [checkEntries_eq_ok, checkEntries_eq_ok]
    exact passes_true_iff

/-- The keys of entries that are the names of no settings. -/
def unknownKeys (es : Entries Datum) : List Key := es.keys.filter fun k => !defaultEntries.has k

theorem checkNames_true_iff {naming : Naming} {es : Entries Datum} {names : List String} :
    checkNames naming true es = .ok names ↔ checkNames naming false es = .ok names ∧ names = [] := by
  unfold checkNames
  cases es.keys.filter fun k => !defaultEntries.has k with
  | nil => exact ⟨fun h => ⟨h, (Except.ok.inj h).symm⟩, And.left⟩
  | cons k ks =>
    rw [List.mapM_cons, List.mapM_cons]
    refine iff_of_false (fun h => ?_) ?_
    · obtain ⟨_, h, -⟩ := bind_eq_ok.mp h
      obtain ⟨_, -, h⟩ := bind_eq_ok.mp h
      cases h
    · rintro ⟨h, rfl⟩
      obtain ⟨_, -, h⟩ := bind_eq_ok.mp h
      obtain ⟨_, -, h⟩ := bind_eq_ok.mp h
      cases h

theorem concur_check (naming : Naming) (d : Datum) : Concur fun strict => check naming strict d := by
  unfold check
  split
  · rintro ⟨s, notes⟩
    simp only [bind_eq_ok]
    constructor
    · rintro ⟨names, hnames, ⟨s', ws⟩, hs, h⟩
      cases h
      obtain ⟨hnames, rfl⟩ := checkNames_true_iff.mp hnames
      obtain ⟨hs, rfl⟩ := (concur_checkEntries _ _).mp hs
      exact ⟨⟨[], hnames, _, hs, rfl⟩, rfl⟩
    · rintro ⟨⟨names, hnames, ⟨s', ws⟩, hs, h⟩, hnotes⟩
      cases h
      obtain ⟨rfl, rfl⟩ := List.append_eq_nil_iff.mp hnotes
      exact ⟨[], checkNames_true_iff.mpr ⟨hnames, rfl⟩, _,
        (concur_checkEntries _ _).mpr ⟨hs, rfl⟩, rfl⟩
  · refine concur_of_warned (fun _ => nofun) fun r h => ?_
    cases h
    simp

/-! ### What strict checking objects to -/

/-- The settings with the names of their types. -/
def types : List (String × String) :=
  [("output_dir", "str"), ("log_file", "str"), ("emit_metadata", "bool"), ("indent", "int"),
    ("log_max_bytes", "int"), ("log_backup_count", "int"), ("log_level", "str")]

/-- The settings that are integers with their bounds. -/
def bounds : List (String × Int × Int) :=
  [("indent", 0, maxIndent), ("log_max_bytes", 1, maxLogBytes), ("log_backup_count", 0, maxLogBackups)]

/-- What is given for a setting, or else its default. -/
def givenOr (es : Entries Datum) (name : String) : Datum := given (overlay es) name

/-- Faults that strict checking can end in, each with what it is about. -/
inductive Objection (naming : Naming) : Datum → SettingFault → Prop
  | notMapping {d : Datum} (hd : ∀ es, d ≠ .mapping false es) :
      Objection naming d (.notMapping d.typeName)
  | unknownField {es : Entries Datum} {k : Key} (hk : k ∈ unknownKeys es) :
      Objection naming (.mapping false es) (.unknownField (k.plain naming))
  | longKey {es : Entries Datum} {k : Key} (hk : k ∈ unknownKeys es)
      (hlong : Json.keyHasLong k = true) : Objection naming (.mapping false es) .longInteger
  | wrongType {es : Entries Datum} {field expected : String} (hfield : (field, expected) ∈ types)
      (hnull : givenOr es field ≠ .null) (htype : (givenOr es field).typeName ≠ expected) :
      Objection naming (.mapping false es) (.wrongType field expected (givenOr es field).typeName)
  | outOfRange {es : Entries Datum} {field : String} {i low high : Int}
      (hfield : (field, low, high) ∈ bounds) (hi : givenOr es field = .int i)
      (hrange : ¬(low ≤ i ∧ i ≤ high)) :
      Objection naming (.mapping false es) (.outOfRange field i low high)
  | longInteger {es : Entries Datum} {field : String} {i low high : Int}
      (hfield : (field, low, high) ∈ bounds) (hi : givenOr es field = .int i)
      (hrange : ¬(low ≤ i ∧ i ≤ high)) (hlong : Json.isLong (.int i) = true) :
      Objection naming (.mapping false es) .longInteger
  | unknownLevel {es : Entries Datum} {s : String} (hs : givenOr es "log_level" = .text s)
      (hlevel : Text.capitals (Text.strip s) ∉ levels.map (·.1)) :
      Objection naming (.mapping false es) (.unknownLevel s)

section Objections

/-- Only scalars have the types that settings have. -/
private theorem exists_scalar_of_typeName {d : Datum} {expected : String}
    (hexpected : expected ∈ types.map (·.2)) (h : d.typeName = expected) :
    ∃ s, d = .scalar s ∧ s.typeName = expected := by
  subst h
  cases d with
  | atom a =>
    cases a with
    | scalar s => exact ⟨s, rfl, rfl⟩
    | entity e =>
      cases e with
      | node id isStack =>
        cases isStack <;> simp [types, Datum.typeName, Atom.typeName, Entity.typeName] at hexpected
      | _ => simp [types, Datum.typeName, Atom.typeName, Entity.typeName] at hexpected
    | _ => simp [types, Datum.typeName, Atom.typeName] at hexpected
  | loop c => cases c <;> simp [types, Datum.typeName, Container.typeName] at hexpected
  | sequence fixed items =>
    cases fixed <;>
      simp [types, Datum.typeName, Container.ofSequence, Container.typeName] at hexpected
  | mapping fixed es =>
    cases fixed <;>
      simp [types, Datum.typeName, Container.ofMapping, Container.typeName] at hexpected

variable {naming : Naming} {es : Entries Datum} {field : String} {fault : SettingFault}

theorem objection_of_checkText (hfield : (field, "str") ∈ types) {fallback : String}
    {allowEmpty : Bool}
    (h : checkText true field fallback allowEmpty (givenOr es field) = .error fault) :
    Objection naming (.mapping false es) fault := by
  have hmisfit := @Objection.wrongType naming es field "str" hfield
  generalize givenOr es field = d at h hmisfit
  unfold checkText at h
  split at h
  · cases h
  · cases h
  · next hnull htext =>
    cases h
    refine hmisfit hnull fun he => ?_
    obtain ⟨s, rfl, hs⟩ := exists_scalar_of_typeName (by decide) he
    cases s with
    | text s => exact htext s rfl
    | _ => simp [Scalar.typeName] at hs

theorem objection_of_checkBool (hfield : (field, "bool") ∈ types) {fallback : Bool}
    (h : checkBool true field fallback (givenOr es field) = .error fault) :
    Objection naming (.mapping false es) fault := by
  have hmisfit := @Objection.wrongType naming es field "bool" hfield
  generalize givenOr es field = d at h hmisfit
  unfold checkBool at h
  dsimp only at h
  split at h
  · cases h
  · cases h
  · cases h
    exact hmisfit nofun (by simp [Datum.typeName, Atom.typeName, Scalar.typeName])
  · next hbool hnull _ =>
    cases h
    refine hmisfit hnull fun he => ?_
    obtain ⟨s, rfl, hs⟩ := exists_scalar_of_typeName (by decide) he
    cases s with
    | bool b => exact hbool b rfl
    | _ => simp [Scalar.typeName] at hs

theorem objection_of_checkInt {low high : Int} (hfield : (field, "int") ∈ types)
    (hbounds : (field, low, high) ∈ bounds) {fallback : Int}
    (h : checkInt true field fallback low high (givenOr es field) = .error fault) :
    Objection naming (.mapping false es) fault := by
  have hmisfit := @Objection.wrongType naming es field "int" hfield
  have hout := fun {i} => @Objection.outOfRange naming es field i low high hbounds
  have hlong := fun {i} => @Objection.longInteger naming es field i low high hbounds
  generalize givenOr es field = d at h hmisfit hout hlong
  unfold checkInt at h
  dsimp only at h
  split at h
  · cases h
  · unfold checkRange at h
    split at h
    · cases h
    · next hrange =>
      split at h
      · next hdigits =>
        cases h
        exact hlong rfl hrange hdigits
      · cases h
        exact hout rfl hrange
  · cases h
    exact hmisfit nofun (by simp [Datum.typeName, Atom.typeName, Scalar.typeName])
  · next hnull hint _ =>
    cases h
    refine hmisfit hnull fun he => ?_
    obtain ⟨s, rfl, hs⟩ := exists_scalar_of_typeName (by decide) he
    cases s with
    | int i => exact hint i rfl
    | _ => simp [Scalar.typeName] at hs

theorem objection_of_checkLevel {fallback : String}
    (h : checkLevel true fallback (givenOr es "log_level") = .error fault) :
    Objection naming (.mapping false es) fault := by
  have hmisfit := @Objection.wrongType naming es "log_level" "str" (by decide)
  have hunknown := fun {s} => @Objection.unknownLevel naming es s
  generalize givenOr es "log_level" = d at h hmisfit hunknown
  unfold checkLevel at h
  split at h
  · cases h
  · dsimp only at h
    split at h
    · cases h
    · next hname =>
      cases h
      refine hunknown rfl fun hmem => hname ?_
      obtain ⟨l, hl, he⟩ := List.mem_map.mp hmem
      exact List.any_eq_true.mpr ⟨l, hl, beq_iff_eq.mpr he⟩
  · next hnull htext =>
    cases h
    refine hmisfit hnull fun he => ?_
    obtain ⟨s, rfl, hs⟩ := exists_scalar_of_typeName (by decide) he
    cases s with
    | text s => exact htext s rfl
    | _ => simp [Scalar.typeName] at hs

theorem objection_of_checkEntries (h : checkEntries true (overlay es) = .error fault) :
    Objection naming (.mapping false es) fault := by
  rcases bind_eq_error.mp h with h | ⟨_, -, h⟩
  · exact objection_of_checkText (by decide) h
  rcases bind_eq_error.mp h with h | ⟨_, -, h⟩
  · exact objection_of_checkText (by decide) h
  rcases bind_eq_error.mp h with h | ⟨_, -, h⟩
  · exact objection_of_checkBool (by decide) h
  rcases bind_eq_error.mp h with h | ⟨_, -, h⟩
  · exact objection_of_checkInt (by decide) (by decide) h
  rcases bind_eq_error.mp h with h | ⟨_, -, h⟩
  · exact objection_of_checkInt (by decide) (by decide) h
  rcases bind_eq_error.mp h with h | ⟨_, -, h⟩
  · exact objection_of_checkInt (by decide) (by decide) h
  rcases bind_eq_error.mp h with h | ⟨_, -, h⟩
  · exact objection_of_checkLevel h
  · cases h

theorem objection_of_checkNames (h : checkNames naming true es = .error fault) :
    Objection naming (.mapping false es) fault := by
  have hunknown := fun {k} => @Objection.unknownField naming es k
  have hlong := fun {k} => @Objection.longKey naming es k
  unfold checkNames at h
  unfold unknownKeys at hunknown hlong
  cases hkeys : es.keys.filter fun k => !defaultEntries.has k with
  | nil =>
    rw [hkeys] at h
    cases h
  | cons k ks =>
    have hk : k ∈ es.keys.filter fun k => !defaultEntries.has k := by simp [hkeys]
    rw [hkeys, List.mapM_cons] at h
    -- The first name that is no setting ends checking.
    unfold unknownName at h
    cases hdigits : Json.keyHasLong k with
    | true =>
      rw [hdigits] at h
      cases h
      exact hlong hk hdigits
    | false =>
      rw [hdigits] at h
      cases h
      exact hunknown hk

/-- What strict checking ends in is about something that it objects to. -/
theorem objection_of_check {d : Datum} (h : check naming true d = .error fault) :
    Objection naming d fault := by
  unfold check at h
  split at h
  · rcases bind_eq_error.mp h with h | ⟨_, -, h⟩
    · exact objection_of_checkNames h
    rcases bind_eq_error.mp h with h | ⟨_, -, h⟩
    · exact objection_of_checkEntries h
    · cases h
  · next hd =>
    cases h
    exact .notMapping hd

end Objections

/-- Strict checking gives settings exactly where lenient checking gives them without a warning, and
then both give the same without a warning; in every other case strict checking ends in a fault that
is about something in what is given. -/
theorem check_true_iff_silent (naming : Naming) (d : Datum) :
    (∀ r, check naming true d = .ok r ↔ check naming false d = .ok r ∧ r.2 = []) ∧
      ((∃ s, check naming false d = .ok (s, [])) ∨
        ∃ fault, check naming true d = .error fault ∧ Objection naming d fault) := by
  have hconcur := concur_check naming d
  refine ⟨hconcur, ?_⟩
  cases h : check naming true d with
  | ok r =>
    obtain ⟨s, notes⟩ := r
    obtain ⟨hlenient, rfl⟩ := (hconcur (s, notes)).mp h
    exact .inl ⟨s, hlenient⟩
  | error fault => exact .inr ⟨fault, rfl, objection_of_check h⟩

end Groundplan.Settings
