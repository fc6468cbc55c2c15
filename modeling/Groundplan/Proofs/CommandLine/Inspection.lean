import Groundplan.Proofs.CommandLine.Running
import Groundplan.Proofs.Document.RoundTrip
import Groundplan.Proofs.Files.TextFile

/-!
# Inspecting documents

Whichever way the document is named, looking for it comes to a document, to none, or to a failure that
ends the run. It comes to none where no document is named, where the file system refuses the path, and
where the text is not JSON or not of the shape of a document; then the exit code is that of nothing to
be done. Only a path with a null character in it and bytes that are not UTF-8 are failures. With a
document at hand a summary always succeeds, and a check exits by the answer to its question: nothing
that was read from JSON fails to be shown.
-/

namespace Groundplan

namespace FileTree

variable {t : FileTree} {env : Environment} {path : String}

/-- The file system refuses what cannot be read, unless the path has a null character in it. -/
theorem isSystem_of_readBytes {e : FileError} (h : t.readBytes env path = .error e) :
    e.isSystem = true ∨ path.contains '\x00' = true ∧ e = .nullCharacter := by
  rcases bind_eq_error.mp h with hfollow | ⟨⟨place, mustBeDirectory⟩, -, h⟩
  · unfold follow at hfollow
    split at hfollow
    · next hnull =>
      cases hfollow
      exact .inr ⟨hnull, rfl⟩
    · cases hlocate : t.locate env.cwd path with
      | ok found =>
        rw [hlocate] at hfollow
        cases hfollow
      | error fault =>
        rw [hlocate] at hfollow
        cases hfollow
        exact .inl rfl
  · dsimp only at h
    split at h
    · cases h
      exact .inl rfl
    · cases h
      exact .inl rfl
    · split at h
      · cases h
        exact .inl rfl
      · cases h

/-- Bytes that are read stand in the tree. -/
theorem exists_find?_of_readBytes {bytes : List UInt8} (h : t.readBytes env path = .ok bytes) :
    ∃ place, t.find? place = some (.file bytes) := by
  obtain ⟨⟨place, mustBeDirectory⟩, -, h⟩ := bind_eq_ok.mp h
  refine ⟨place, ?_⟩
  dsimp only at h
  split at h
  · cases h
  · cases h
  · next hfind =>
    split at h
    · cases h
    · cases h
      exact hfind

end FileTree

namespace CommandLine.Run

/-- What looking for the document that arguments choose comes to: a document, or none. -/
inductive Finds (settings : Settings) (choice : DocumentChoice) (p : Execution) :
    Option Document → Prop
  | unchosen {reason : String} (h : chosenPath settings choice p.session = .error reason) :
      Finds settings choice p none
  | unreadable {path : String} {e : FileError}
      (hpath : chosenPath settings choice p.session = .ok path)
      (hread : p.session.files.readBytes p.session.environment path = .error e)
      (hsystem : e.isSystem = true) : Finds settings choice p none
  | malformed {path : String} {bytes : List UInt8} {text : String} {fault : DocumentFault}
      (hpath : chosenPath settings choice p.session = .ok path)
      (hread : p.session.files.readBytes p.session.environment path = .ok bytes)
      (htext : FileTree.textOf bytes = .ok text)
      (hload : Document.load p.session.workspace.naming (.text text) = .error fault) :
      Finds settings choice p none
  | loaded {path : String} {bytes : List UInt8} {text : String} {doc : Document}
      (hpath : chosenPath settings choice p.session = .ok path)
      (hread : p.session.files.readBytes p.session.environment path = .ok bytes)
      (htext : FileTree.textOf bytes = .ok text)
      (hload : Document.load p.session.workspace.naming (.text text) = .ok doc) :
      Finds settings choice p (some doc)

/-- What ends a run that looks for the document that arguments choose: a null character in its path,
or bytes in its file that are no text. -/
inductive Balks (settings : Settings) (choice : DocumentChoice) (p : Execution) : FileError → Prop
  | nullCharacter {path : String} (hpath : chosenPath settings choice p.session = .ok path)
      (hnull : path.contains '\x00' = true) : Balks settings choice p .nullCharacter
  | undecodable {path : String} {bytes : List UInt8} {e : Text.DecodeError}
      (hpath : chosenPath settings choice p.session = .ok path)
      (hread : p.session.files.readBytes p.session.environment path = .ok bytes)
      (htext : Text.ofUtf8 bytes = .error e) : Balks settings choice p (.undecodable e)

variable {settings : Settings} {choice : DocumentChoice} {p : Execution}

/-- Looking for a document comes to one, to none or to a failure. -/
theorem exists_finds_or_balks (settings : Settings) (choice : DocumentChoice) (p : Execution) :
    (∃ found, Finds settings choice p found) ∨ ∃ e, Balks settings choice p e := by
  cases hpath : chosenPath settings choice p.session with
  | error reason => exact .inl ⟨_, .unchosen hpath⟩
  | ok path =>
    cases hread : p.session.files.readBytes p.session.environment path with
    | error e =>
      rcases FileTree.isSystem_of_readBytes hread with hsystem | ⟨hnull, rfl⟩
      · exact .inl ⟨_, .unreadable hpath hread hsystem⟩
      · exact .inr ⟨_, .nullCharacter hpath hnull⟩
    | ok bytes =>
      cases htext : FileTree.textOf bytes with
      | error e =>
        unfold FileTree.textOf at htext
        split at htext
        · cases htext
        · next hdecode => exact .inr ⟨_, .undecodable hpath hread hdecode⟩
      | ok text =>
        cases hload : Document.load p.session.workspace.naming (.text text) with
        | error fault => exact .inl ⟨_, .malformed hpath hread htext hload⟩
        | ok doc => exact .inl ⟨_, .loaded hpath hread htext hload⟩

private theorem goes_loaded (p : Execution) (text : String) :
    (goes (orFault (work (Session.loadDocument (.text text)))) p).1 =
      .ok ((Document.load p.session.workspace.naming (.text text)).mapError .document) := by
  rw [goes_orFault, goes_work, Session.goes_loadDocument_text]
  cases Document.load p.session.workspace.naming (.text text) <;> rfl

private theorem goes_chosenDocument_of_text {path : String} {bytes : List UInt8} {text : String}
    (hpath : chosenPath settings choice p.session = .ok path)
    (hread : p.session.files.readBytes p.session.environment path = .ok bytes)
    (htext : FileTree.textOf bytes = .ok text) :
    ∃ result p', goes (chosenDocument settings choice) p = (.ok result, p') ∧
      result.toOption = (Document.load p.session.workspace.naming (.text text)).toOption := by
  have hfile : p.session.files.readText p.session.environment path = .ok text := by
    rw [FileTree.readText, hread]
    exact htext
  have hloaded := goes_loaded p text
  unfold chosenDocument
  rw [goes_bind_of_ok (goes_get p)]
  simp only [hpath, hfile]
  rw [goes_bind]
  cases hgoes : goes (orFault (work (Session.loadDocument (.text text)))) p with
  | mk result p' =>
    rw [hgoes] at hloaded
    dsimp only at hloaded
    subst hloaded
    cases Document.load p.session.workspace.naming (.text text) <;> exact ⟨_, p', rfl, rfl⟩

/-- What looking for a document comes to is what the run goes on with. -/
theorem goes_chosenDocument_of_finds {found : Option Document} (h : Finds settings choice p found) :
    ∃ result p', goes (chosenDocument settings choice) p = (.ok result, p') ∧
      result.toOption = found := by
  cases h with
  | unchosen h =>
    unfold chosenDocument
    rw [goes_bind_of_ok (goes_get p)]
    simp only [h]
    exact ⟨_, p, rfl, rfl⟩
  | @unreadable path e hpath hread hsystem =>
    have hfile : p.session.files.readText p.session.environment path = .error e := by
      rw [FileTree.readText, hread]
      rfl
    unfold chosenDocument
    rw [goes_bind_of_ok (goes_get p)]
    simp only [hpath, hfile, hsystem, if_true]
    exact ⟨_, p, rfl, rfl⟩
  | malformed hpath hread htext hload =>
    have hgoes := goes_chosenDocument_of_text hpath hread htext
    rwa [hload] at hgoes
  | loaded hpath hread htext hload =>
    have hgoes := goes_chosenDocument_of_text hpath hread htext
    rwa [hload] at hgoes

/-- What ends the run ends the search for a document. -/
theorem goes_chosenDocument_of_balks {e : FileError} (h : Balks settings choice p e) :
    goes (chosenDocument settings choice) p = (.error (.file e), p) := by
  have hgoes {path : String} (hpath : chosenPath settings choice p.session = .ok path)
      (hfile : p.session.files.readText p.session.environment path = .error e)
      (hsystem : e.isSystem = false) :
      goes (chosenDocument settings choice) p = (.error (.file e), p) := by
    unfold chosenDocument
    rw [goes_bind_of_ok (goes_get p)]
    simp only [hpath, hfile, hsystem]
    rfl
  cases h with
  | nullCharacter hpath hnull =>
    refine hgoes hpath ?_ rfl
    rw [FileTree.readText, FileTree.readBytes, FileTree.follow, if_pos hnull]
    rfl
  | undecodable hpath hread htext =>
    refine hgoes hpath ?_ rfl
    rw [FileTree.readText, hread]
    show FileTree.textOf _ = _
    rw [FileTree.textOf, htext]

/-! ### What is shown -/

private theorem size_freeze (d : Datum) : d.freeze.size = d.size := by
  cases d <;> simp [Datum.freeze, Datum.withFixed, Datum.size]

private theorem size_le_of_given {n : Nat} {d : Datum} (h : Json.Given n d) : d.size ≤ n := by
  cases d with
  | sequence fixed items => cases fixed with
    | false => exact h
    | true => exact h.elim
  | mapping fixed es => cases fixed with
    | false => exact h.2
    | true => exact h.elim
  | _ => exact Nat.zero_le n

/-- The types that a loaded document has in a section are texts, and none has more blocks than the
document's text has characters. -/
private theorem counts_of_load {naming : Naming} {text : String} {doc : Document}
    (hload : Document.load naming (.text text) = .ok doc) {kind : BlockKind}
    (hkind : doc.hasSection kind = true) :
    (∀ k ∈ (doc.entriesOf kind).keys, ∃ s, k = .text s) ∧
      ∀ d ∈ (doc.entriesOf kind).values, d.size ≤ text.toList.length := by
  cases hsection : doc.section? kind with
  | none => simp [Document.hasSection, hsection] at hkind
  | some d =>
    have htruthy : d.isTruthy = true := by simpa [Document.hasSection, hsection] using hkind
    have hentries : doc.entriesOf kind = d.entries := by simp [Document.entriesOf, hsection]
    rw [hentries]
    refine ⟨Document.text_keys_of_load hload hsection htruthy, fun d' hd' => ?_⟩
    obtain ⟨x, v, hread, hwithin, rfl⟩ := Document.exists_within_of_load hload hsection htruthy
    cases v with
    | mapping fixed es =>
      rw [Datum.freeze, Datum.withFixed, Datum.withFixedEntries_eq_map] at hd'
      obtain ⟨_, hfrozen, rfl⟩ := List.mem_map.mp hd'
      obtain ⟨e, he, rfl⟩ := List.mem_map.mp hfrozen
      have hpart := (Json.everywhere_given_of_readWithin hread).part hwithin
      exact (size_freeze e.2).trans_le (size_le_of_given (hpart _ (.entry he (.refl _))))
    | _ => simp [Datum.freeze, Datum.withFixed, Datum.entries, Datum.entries?, Entries.values] at hd'

private theorem writable_summary {naming : Naming} {text : String} {doc : Document}
    (hload : Document.load naming (.text text) = .ok doc)
    (hsize : text.toList.length < 10 ^ Text.digitLimit) : Json.Writable doc.summary.toDatum := by
  have hcounts : ∀ b ∈ doc.summary.blocks, (∀ k ∈ b.2.keys, ∃ s, k = .text s) ∧
      ∀ n ∈ b.2.values, n < 10 ^ Text.digitLimit := by
    intro b hb
    obtain ⟨kind, hkind, rfl⟩ := List.mem_map.mp hb
    obtain ⟨hkeys, hsizes⟩ := counts_of_load hload (List.mem_filter.mp hkind).2
    have hmapped {f : Datum → Nat}
        (hf : ∀ d ∈ (doc.entriesOf kind).values, f d < 10 ^ Text.digitLimit) :
        (∀ k ∈ (Entries.mapValues f (doc.entriesOf kind)).keys, ∃ s, k = .text s) ∧
          ∀ n ∈ (Entries.mapValues f (doc.entriesOf kind)).values, n < 10 ^ Text.digitLimit := by
      rw [Entries.keys_mapValues]
      refine ⟨hkeys, fun n hn => ?_⟩
      obtain ⟨_, hcounted, rfl⟩ := List.mem_map.mp hn
      obtain ⟨e, he, rfl⟩ := List.mem_map.mp hcounted
      exact hf _ (List.mem_map_of_mem he)
    cases kind with
    | output => exact hmapped fun _ _ => Nat.one_lt_pow (by decide) (by decide)
    | _ => exact hmapped fun d hd => (hsizes d hd).trans_lt hsize
  refine Json.writable_record (List.forall_mem_cons.mpr
    ⟨Json.writable_scalar rfl, List.forall_mem_singleton.mpr ?_⟩)
  refine Json.writable_mapping (fun k hk => ?_) fun e he => ?_
  · simp only [Entries.keys, List.map_map, List.mem_map] at hk
    obtain ⟨b, -, rfl⟩ := hk
    exact ⟨_, rfl⟩
  · obtain ⟨b, hb, rfl⟩ := List.mem_map.mp he
    obtain ⟨hkeys, hvalues⟩ := hcounts b hb
    refine Json.writable_mapping (by rwa [Entries.keys_mapValues]) fun _ hshown => ?_
    obtain ⟨e, he, rfl⟩ := List.mem_map.mp hshown
    exact Json.writable_scalar (Json.isLong_ofNat (hvalues _ (List.mem_map_of_mem he)))

/-- Nothing is asked for, or a mapping that was read from JSON. -/
private theorem writable_predicateOf {properties : Option String} {predicate : Option Datum}
    (h : predicateOf properties = .ok predicate) :
    predicate = none ∨ ∃ d, predicate = some d ∧ Json.Writable d ∧
      ∃ fixed es, d = .mapping fixed es := by
  unfold predicateOf at h
  split at h
  · cases h
    exact .inl rfl
  · split at h
    · cases h
    · next hread =>
      cases h
      exact .inr ⟨_, rfl, Json.writable_of_given (Json.everywhere_given_of_readWithin hread), _, _, rfl⟩
    · cases h

private theorem writable_answer {properties : Option String} {predicate : Option Datum}
    (h : predicateOf properties = .ok predicate) (kind type : String) (isMatch : Bool) :
    Json.Writable (.record [("kind", .text kind), ("type", .text type),
      ("properties", predicate.getD .null), ("matched", .bool isMatch)]) := by
  have hasked : Json.Writable (predicate.getD .null) := by
    rcases writable_predicateOf h with rfl | ⟨d, rfl, hd, -⟩
    · exact Json.writable_scalar rfl
    · exact hd
  refine Json.writable_record fun field hfield => ?_
  simp only [List.mem_cons, List.not_mem_nil, or_false] at hfield
  rcases hfield with rfl | rfl | rfl | rfl
  · exact Json.writable_scalar rfl
  · exact Json.writable_scalar rfl
  · exact hasked
  · exact Json.writable_scalar rfl

private theorem exists_holds {properties : Option String} {predicate : Option Datum}
    (h : predicateOf properties = .ok predicate) (doc : Document) (kind : TypedKind)
    (type : String) : ∃ isMatch, holds doc kind type predicate = .ok isMatch := by
  rcases writable_predicateOf h with rfl | ⟨_, rfl, -, fixed, es, rfl⟩
  · exact ⟨_, rfl⟩
  · exact ⟨_, rfl⟩

/-! ### Exit codes -/

/-- How the commands that inspect a document exit. -/
structure Exits (settings : Settings) (isJson : Bool) (choice : DocumentChoice) (p : Execution) :
    Prop where
  /-- Looking for the document comes to one, to none, or to a failure. -/
  finds_or_balks : (∃ found, Finds settings choice p found) ∨ ∃ e, Balks settings choice p e
  /-- Without a document there is nothing to sum up. -/
  summary_none : Finds settings choice p none →
    (goes (runCommand settings isJson (.summary choice)) p).1 = .ok exitUsage
  /-- Any document is summed up. -/
  summary_some : ∀ doc, Finds settings choice p (some doc) →
    (goes (runCommand settings isJson (.summary choice)) p).1 = .ok exitDone
  /-- A predicate that is no JSON object is not looked for. -/
  check_invalid : ∀ kind type properties reason, predicateOf properties = .error reason →
    (goes (runCommand settings isJson (.check choice kind type properties)) p).1 = .ok exitUsage
  /-- Without a document there is nothing to check. -/
  check_none : ∀ kind type properties, Finds settings choice p none →
    (goes (runCommand settings isJson (.check choice kind type properties)) p).1 = .ok exitUsage
  /-- A check of a document exits by whether the document has what is asked for. -/
  check_some : ∀ doc kind type properties predicate, Finds settings choice p (some doc) →
    predicateOf properties = .ok predicate → ∃ isMatch, holds doc kind type predicate = .ok isMatch ∧
      (goes (runCommand settings isJson (.check choice kind type properties)) p).1 =
        .ok (if isMatch then exitDone else exitNoMatch)
  /-- A failure to look for the document ends the run. -/
  balks : ∀ e, Balks settings choice p e →
    (goes (runCommand settings isJson (.summary choice)) p).1 = .error (.file e) ∧
      ∀ kind type properties predicate, predicateOf properties = .ok predicate →
        (goes (runCommand settings isJson (.check choice kind type properties)) p).1 =
          .error (.file e)

private theorem fst_giveUp_of_none {result : Except String Document}
    (h : result.toOption = none) (f : Document → Run Nat) (p : Execution) :
    (goes (match result with
      | .error reason => giveUp reason
      | .ok doc => f doc) p).1 = .ok exitUsage := by
  cases result with
  | error reason => exact goes_giveUp reason p
  | ok doc => cases h

section Found

variable {settings : Settings} {choice : DocumentChoice} {p : Execution} {doc : Document}
  (h : Finds settings choice p (some doc))
include h

/-- A document that is found is summed up, for people or as JSON. -/
private theorem fst_summary_of_finds (isJson : Bool)
    (hsize : ∀ place bytes, p.session.files.find? place = some (.file bytes) →
      bytes.length < 10 ^ Text.digitLimit) :
    (goes (runCommand settings isJson (.summary choice)) p).1 = .ok exitDone := by
  obtain ⟨result, p', hgoes, hsome⟩ := goes_chosenDocument_of_finds h
  cases result with
  | error reason => cases hsome
  | ok doc' =>
    cases hsome
    rw [runCommand, runSummary, goes_bind_of_ok hgoes]
    cases isJson with
    | false => rfl
    | true =>
      cases h with
      | loaded hpath hread htext hload =>
        obtain ⟨place, hplace⟩ := FileTree.exists_find?_of_readBytes hread
        have hshort := (FileTree.length_le_of_textOf htext).trans_lt (hsize place _ hplace)
        obtain ⟨p'', hprinted⟩ :=
          goes_printJson_of_writable (writable_summary hload hshort) (.ofSpaces settings.indent) p'
        exact congrArg Prod.fst (goes_bind_of_ok hprinted)

/-- A document that is found is asked for blocks with a predicate that is one, and has some or
none. -/
private theorem fst_check_of_finds (isJson : Bool) (kind : TypedKind) (type : String)
    {properties : Option String} {predicate : Option Datum}
    (hpredicate : predicateOf properties = .ok predicate) :
    ∃ isMatch, holds doc kind type predicate = .ok isMatch ∧
      (goes (runCommand settings isJson (.check choice kind type properties)) p).1 =
        .ok (if isMatch then exitDone else exitNoMatch) := by
  obtain ⟨result, p', hgoes, hsome⟩ := goes_chosenDocument_of_finds h
  obtain ⟨isMatch, hmatch⟩ := exists_holds hpredicate doc kind type
  refine ⟨isMatch, hmatch, ?_⟩
  cases result with
  | error reason => cases hsome
  | ok doc' =>
    cases hsome
    simp only [runCommand, runCheck, hpredicate]
    rw [goes_bind_of_ok hgoes]
    have hanswer : goes (work (Session.orFail .predicate (holds doc kind type predicate))) p' =
        (.ok isMatch, p'.resumed { p'.session with events := [] }) := by
      rw [goes_work, Session.goes_orFail, hmatch]
      rfl
    rw [goes_bind_of_ok hanswer, goes_bind_of_ok (goes_report _ _)]
    cases isJson with
    | false => cases isMatch <;> rfl
    | true =>
      have hwritable : Json.Writable (.record [("kind", .text kind.name), ("type", .text type),
          ("properties", predicate.getD .null), ("matched", .bool isMatch)]) :=
        writable_answer hpredicate _ _ _
      obtain ⟨p'', hprinted⟩ := goes_printJson_of_writable hwritable .oneLine _
      exact congrArg Prod.fst (goes_bind_of_ok hprinted)

end Found

/-- Whatever bytes stand where the document is looked for, the commands that inspect it exit by what
they find. -/
theorem inspection_exits (settings : Settings) (isJson : Bool) (choice : DocumentChoice)
    (p : Execution)
    (hsize : ∀ place bytes, p.session.files.find? place = some (.file bytes) →
      bytes.length < 10 ^ Text.digitLimit) : Exits settings isJson choice p where
  finds_or_balks := exists_finds_or_balks settings choice p
  summary_none := by
    intro h
    obtain ⟨result, p', hgoes, hnone⟩ := goes_chosenDocument_of_finds h
    rw [runCommand, runSummary, goes_bind_of_ok hgoes]
    exact fst_giveUp_of_none hnone _ p'
  summary_some _ h := fst_summary_of_finds h isJson hsize
  check_invalid := by
    intro kind type properties reason h
    simp only [runCommand, runCheck, h]
    exact goes_giveUp reason p
  check_none := by
    intro kind type properties h
    obtain ⟨result, p', hgoes, hnone⟩ := goes_chosenDocument_of_finds h
    cases hpredicate : predicateOf properties with
    | error reason =>
      simp only [runCommand, runCheck, hpredicate]
      exact goes_giveUp reason p
    | ok predicate =>
      simp only [runCommand, runCheck, hpredicate]
      rw [goes_bind_of_ok hgoes]
      exact fst_giveUp_of_none hnone _ p'
  check_some _ kind type _ _ h hpredicate := fst_check_of_finds h isJson kind type hpredicate
  balks := by
    intro e h
    have hgoes := goes_chosenDocument_of_balks h
    refine ⟨?_, fun kind type properties predicate hpredicate => ?_⟩
    · rw [runCommand, runSummary, goes_bind_of_error hgoes]
    · simp only [runCommand, runCheck, hpredicate]
      rw [goes_bind_of_error hgoes]

/-- A run in a directory with one file in it. -/
def runBeside (bytes : List UInt8) : Execution where
  session :=
    { environment := ⟨"/work", []⟩
      files := ⟨[(["work"], .directory), (["work", "doc.json"], .file bytes)]⟩ }
  time := ""

private theorem chosenPath_runBeside (bytes : List UInt8) :
    chosenPath .defaults ⟨some "doc.json", none⟩ (runBeside bytes).session = .ok "/work/doc.json" :=
  congrArg Except.ok (by decide +kernel : Path.resolve ⟨"/work", []⟩ "doc.json" "" = "/work/doc.json")

private theorem readBytes_runBeside (bytes : List UInt8) :
    (runBeside bytes).session.files.readBytes (runBeside bytes).session.environment
      "/work/doc.json" = .ok bytes := by
  have hlocate : (runBeside bytes).session.files.locate "/work" "/work/doc.json" =
      .ok (["work", "doc.json"], false) := by
    rfl
  have hfollow : (runBeside bytes).session.files.follow (runBeside bytes).session.environment
      "/work/doc.json" = .ok (["work", "doc.json"], false) := by
    rw [FileTree.follow, if_neg (by simp [String.contains_char_eq])]
    show ((runBeside bytes).session.files.locate "/work" "/work/doc.json").mapError _ = _
    rw [hlocate]
    rfl
  rw [FileTree.readBytes, hfollow]
  rfl

private theorem eq_of_find?_runBeside {bytes bytes' : List UInt8} {place : List String}
    (h : (runBeside bytes).session.files.find? place = some (.file bytes')) : bytes' = bytes := by
  by_cases hfile : place = ["work", "doc.json"]
  · subst hfile
    cases h
    rfl
  · by_cases hdirectory : place = ["work"]
    · subst hdirectory
      cases h
    · simp [FileTree.find?, runBeside, Ne.symm hfile, Ne.symm hdirectory] at h

/-- A document that is named by its file is found. -/
theorem inspection_exits_file :
    Exits .defaults true ⟨some "doc.json", none⟩ (runBeside (Text.utf8 "\x7b\x7d")) ∧
      ∃ doc, Finds .defaults ⟨some "doc.json", none⟩ (runBeside (Text.utf8 "\x7b\x7d"))
        (some doc) := by
  refine ⟨inspection_exits _ _ _ _ fun place bytes hfind => ?_, ?_⟩
  · rw [eq_of_find?_runBeside hfind]
    exact Nat.lt_trans (by decide +kernel : (Text.utf8 "\x7b\x7d").length < Text.digitLimit)
      (Nat.lt_pow_self (by decide))
  · have hload : (Document.load (runBeside (Text.utf8 "\x7b\x7d")).session.workspace.naming
        (.text "\x7b\x7d")).toOption.isSome = true := by decide +kernel
    obtain ⟨doc, hdoc⟩ := Option.isSome_iff_exists.mp hload
    exact ⟨doc, .loaded (chosenPath_runBeside _) (readBytes_runBeside _)
      (FileTree.textOf_utf8 (by decide)) (toOption_eq_some.mp hdoc)⟩

/-- Bytes that are not UTF-8 end a summary in a failure. -/
theorem summary_undecodable :
    (runBeside [0xff]).session.files.readBytes (runBeside [0xff]).session.environment
        "/work/doc.json" = .ok [0xff] ∧
      (goes (runCommand .defaults false (.summary ⟨some "doc.json", none⟩)) (runBeside [0xff])).1 =
        .error (.file (.undecodable ⟨"utf-8", 0xff, 0, 0, "invalid start byte"⟩)) := by
  have htext : Text.ofUtf8 [0xff] = .error ⟨"utf-8", 0xff, 0, 0, "invalid start byte"⟩ := by
    have hinvalid : String.fromUTF8? ⟨[0xff].toArray⟩ = none :=
      Option.isNone_iff_eq_none.mp (by decide +kernel)
    unfold Text.ofUtf8
    split
    · next s hs => cases hinvalid.symm.trans hs
    · exact congrArg Except.error (by decide +kernel)
  refine ⟨readBytes_runBeside _, ?_⟩
  rw [runCommand, runSummary, goes_bind_of_error (goes_chosenDocument_of_balks
    (.undecodable (chosenPath_runBeside _) (readBytes_runBeside _) htext))]

end CommandLine.Run

end Groundplan
