import Groundplan.Proofs.CommandLine.Scripts
import Groundplan.Proofs.Document.Reloading
import Groundplan.Proofs.Files.Listing

/-!
# Synthesis of a project

The documents of a project are all made before the first is written. So a fault on the way ends the
run with no document written, whichever stack it came from; and a run that is done has written the
document of each stack to a place of its own, where it is read and loaded as what the stack became.
-/

namespace Groundplan

/-- Every fault can be reported in JSON. -/
theorem Fault.writable_report (f : Fault) : Json.Writable f.report := by
  have htext (s : String) : Json.Writable (.text s) := Json.writable_scalar rfl
  have hnull : Json.Writable .null := Json.writable_scalar rfl
  have htexts (texts : List String) : Json.Writable (textList texts) := by
    refine Json.writable_list fun d hd => ?_
    obtain ⟨s, -, rfl⟩ := List.mem_map.mp hd
    exact htext s
  have hdetails : ∀ field ∈ f.details, Json.Writable field.2 := by
    cases f with
    | property fault => cases fault <;> simp [details, PropertyFault.details, pathDetail, htext]
    | synthesis fault =>
      cases fault with
      | aliasTaken path type shown =>
        cases type <;> simp [details, SynthesisFault.details, pathDetail, htext, hnull]
      | _ => simp [details, SynthesisFault.details, pathDetail, htext, htexts]
    | document fault => cases fault <;> simp [details, DocumentFault.details, htext, htexts]
    | _ => simp [details, htext]
  refine Json.writable_record fun field hfield => ?_
  rcases List.mem_append.mp hfield with hfield | hfield
  · simp only [List.mem_cons, List.not_mem_nil, or_false] at hfield
    rcases hfield with rfl | rfl <;> exact htext _
  · exact hdetails field hfield

namespace CommandLine.Run

variable {outdir : String} {layout : Json.Layout} {p p' : Execution}

/-- A run that goes on after writing a document has the document where it belongs. -/
theorem wrote_of_goes_writeDocument (hcwd : Path.isAbsolute p.session.environment.cwd = true)
    {doc : Document} (hname : '/' ∉ doc.stackName.toList) {path : String}
    (h : goes (work (Session.writeDocument doc outdir layout)) p = (.ok path, p')) :
    p'.session.environment = p.session.environment ∧ ∃ text, doc.toJson layout = .ok text ∧
      FileTree.Wrote p.session.files p'.session.files p.session.environment
        (Output.filePath p.session.environment outdir doc.stackName) (Text.utf8 (text ++ "\n")) := by
  rw [goes_work, Session.writeDocument, goes_bind, Session.goes_withFiles] at h
  dsimp only at h
  cases hwrite : Output.writeDocument p.session.files p.session.environment doc outdir layout with
  | mk t result =>
    rw [hwrite] at h
    cases result with
    | error e => cases (Prod.mk.inj h).1
    | ok path' =>
      obtain ⟨-, rfl⟩ := Prod.mk.inj h
      rw [Execution.session_resumed]
      exact ⟨rfl, Output.wrote_of_writeDocument hcwd hname hwrite⟩

/-- Writes a document, and keeps the path under its name. -/
def store (outdir : String) (layout : Json.Layout) (d : String × Document) : Run (String × String) :=
  do return (d.1, ← work (Session.writeDocument d.2 outdir layout))

/-- A run that goes on after writing documents of different stacks has all of them where they
belong. -/
theorem deposited_of_goes_store {docs : List (String × Document)} {written : List (String × String)}
    (hcwd : Path.isAbsolute p.session.environment.cwd = true)
    (hnames : ∀ d ∈ docs, IsIdentifier d.2.stackName)
    (hnodup : (docs.map (·.2.stackName)).Nodup)
    (h : goes (docs.mapM (store outdir layout)) p = (.ok written, p')) :
    Output.Deposited p.session.files p'.session.files p.session.environment outdir layout
      (docs.map (·.2)) := by
  induction docs generalizing p written with
  | nil =>
    cases h
    exact .nil ..
  | cons d docs ih =>
    obtain ⟨hname, hrest⟩ := List.forall_mem_cons.mp hnames
    rw [List.map_cons, List.nodup_cons] at hnodup
    rw [List.mapM_cons, store] at h
    obtain ⟨r, p₁, hstore, h⟩ := goes_bind_eq_ok h
    obtain ⟨path, p₂, hwrite, hr⟩ := goes_bind_eq_ok hstore
    obtain ⟨-, rfl⟩ := Prod.mk.inj hr
    obtain ⟨rs, p₃, hmore, h⟩ := goes_bind_eq_ok h
    obtain ⟨-, rfl⟩ := Prod.mk.inj h
    obtain ⟨henv, text, htext, hwrote⟩ := wrote_of_goes_writeDocument hcwd hname.2 hwrite
    have hdeposited := ih (henv ▸ hcwd) hrest hnodup.2 hmore
    rw [henv] at hdeposited
    refine .cons htext hwrote hdeposited fun other hother he => hnodup.1 ?_
    obtain ⟨d', hd', rfl⟩ := List.mem_map.mp hother
    rw [Output.filePath_inj hcwd hname (hrest d' hd') he]
    exact List.mem_map_of_mem hd'

/-- A run goes on after writing documents that can be written. -/
theorem exists_goes_store {docs : List (String × Document)} {env : Environment}
    (henv : p.session.environment = env)
    (h : Output.Writes env outdir layout p.session.files (docs.map (·.2))) :
    ∃ written p', goes (docs.mapM (store outdir layout)) p = (.ok written, p') := by
  induction docs generalizing p with
  | nil => exact ⟨[], p, rfl⟩
  | cons d docs ih =>
    rw [List.map_cons] at h
    cases h with
    | @cons _ t _ _ path hdoc hdocs =>
      have hwrite : goes (work (Session.writeDocument d.2 outdir layout)) p =
          (.ok path, p.resumed
            { p.session with files := t, events := [] ++ [.documentWritten path] }) := by
        rw [goes_work, Session.writeDocument, goes_bind, Session.goes_withFiles]
        dsimp only
        rw [henv, hdoc]
        rfl
      have hsession := Execution.session_resumed p
        { p.session with files := t, events := [] ++ [.documentWritten path] }
      generalize p.resumed _ = p₁ at hwrite hsession
      have henv₁ : p₁.session.environment = env := by rw [hsession, ← henv]
      obtain ⟨rs, p₂, hrest⟩ := ih henv₁ (by rw [hsession]; exact hdocs)
      have hstore : goes (store outdir layout d) p = (.ok (d.1, path), p₁) := goes_bind_of_ok hwrite
      refine ⟨(d.1, path) :: rs, p₂, ?_⟩
      rw [List.mapM_cons, goes_bind_of_ok hstore]
      exact goes_bind_of_ok hrest

section RunSynth

variable {settings : Settings} (isJson : Bool) {target : String} {build : AppId → Work Unit}
  {s : Session}

/-- Faults of what is built are caught. -/
private theorem exists_goes_orFault (made : Except Fault (List (String × Document)))
    (hbuild : goes (builtDocuments settings build) { p.session with events := [] } =
      (made.mapError .fault, s)) :
    ∃ p₂, p₂.session = { s with events := [] } ∧
      goes (orFault (work (builtDocuments settings build)))
        (p.resumed { p.session with events := [] }) = (.ok made, p₂) := by
  refine ⟨_, Execution.session_resumed (p.resumed { p.session with events := [] }) s, ?_⟩
  rw [goes_orFault, goes_work, Execution.session_resumed, hbuild]
  cases made <;> rfl

variable (hfind : findBuilder p.modules target = .ok (.ok build))
include hfind

private theorem goes_findBuilder : goes (work (Session.orFail id (findBuilder p.modules target))) p =
    (.ok (.ok build), p.resumed { p.session with events := [] }) := by
  rw [goes_work, Session.goes_orFail, hfind]
  rfl

/-- A fault of what is built ends the run, and leaves the files as they were by then. -/
theorem goes_runSynth_of_fault {fault : Fault}
    (hbuild : goes (builtDocuments settings build) { p.session with events := [] } =
      (.error (.fault fault), s)) :
    (goes (runSynth settings isJson target) p).1 = .ok exitNoMatch ∧
      (goes (runSynth settings isJson target) p).2.session.files = s.files := by
  obtain ⟨p₂, hsession, hgoes⟩ := exists_goes_orFault (.error fault) hbuild
  have hfiles : (p₂.log (.synthesisFailed fault.message)).session.files = s.files := by
    rw [Execution.session_log, hsession]
  rw [runSynth, goes_bind_of_ok (goes_get p), goes_bind_of_ok (goes_findBuilder hfind)]
  dsimp only
  rw [goes_bind_of_ok hgoes]
  dsimp only
  rw [goes_bind_of_ok (goes_report _ _)]
  cases isJson with
  | false => exact ⟨rfl, hfiles⟩
  | true =>
    obtain ⟨p₃, hprinted⟩ := goes_printJson_of_writable fault.writable_report .oneLine
      (p₂.log (.synthesisFailed fault.message))
    have hleft := session_printJson .oneLine fault.report (p₂.log (.synthesisFailed fault.message))
    rw [hprinted] at hleft
    rw [if_pos rfl, goes_bind_of_ok hprinted]
    refine ⟨rfl, ?_⟩
    show p₃.session.files = s.files
    rw [hleft, hfiles]

/-- Any other failure of what is built is that of the run. -/
theorem goes_runSynth_of_failure {failure : Failure} (hne : ∀ fault, failure ≠ .fault fault)
    (hbuild : goes (builtDocuments settings build) { p.session with events := [] } =
      (.error failure, s)) : (goes (runSynth settings isJson target) p).1 = .error failure := by
  have hgoes : goes (orFault (work (builtDocuments settings build)))
      (p.resumed { p.session with events := [] }) =
        (.error failure, (p.resumed { p.session with events := [] }).resumed s) := by
    rw [goes_orFault, goes_work, Execution.session_resumed, hbuild]
    cases failure with
    | fault fault => exact absurd rfl (hne fault)
    | _ => rfl
  rw [runSynth, goes_bind_of_ok (goes_get p), goes_bind_of_ok (goes_findBuilder hfind)]
  dsimp only
  rw [goes_bind_of_error hgoes]

/-- A run that is done has written all documents that were built. -/
theorem deposited_of_goes_runSynth {docs : List (String × Document)}
    (hbuild : goes (builtDocuments settings build) { p.session with events := [] } = (.ok docs, s))
    (hcwd : Path.isAbsolute s.environment.cwd = true)
    (hnames : ∀ d ∈ docs, IsIdentifier d.2.stackName)
    (hnodup : (docs.map (·.2.stackName)).Nodup)
    (h : (goes (runSynth settings isJson target) p).1 = .ok exitDone) :
    Output.Deposited s.files (goes (runSynth settings isJson target) p).2.session.files
      s.environment settings.outputDir (.ofSpaces settings.indent) (docs.map (·.2)) := by
  obtain ⟨p₂, hsession, hgoes⟩ := exists_goes_orFault (.ok docs) hbuild
  rw [runSynth, goes_bind_of_ok (goes_get p), goes_bind_of_ok (goes_findBuilder hfind)] at h ⊢
  dsimp only at h ⊢
  rw [goes_bind_of_ok hgoes] at h ⊢
  dsimp only at h ⊢
  rw [goes_bind] at h ⊢
  generalize hwritten : goes (List.mapM _ docs) p₂ = written at h ⊢
  obtain ⟨result, p₃⟩ := written
  cases result with
  | error e => cases h
  | ok paths =>
    have hdeposited : Output.Deposited p₂.session.files p₃.session.files p₂.session.environment
        settings.outputDir (.ofSpaces settings.indent) (docs.map (·.2)) :=
      deposited_of_goes_store (hsession ▸ hcwd) hnames hnodup hwritten
    rw [hsession] at hdeposited
    dsimp only at hdeposited ⊢
    cases isJson with
    | false =>
      cases paths with
      | nil => exact hdeposited
      | cons path paths => exact hdeposited
    | true =>
      rw [if_pos rfl, goes_bind]
      have hleft := session_printJson (.ofSpaces settings.indent) (.record
        [("stacks", .record (paths.map fun x => (x.1, .text x.2)))]) p₃
      generalize goes (printJson _ _) p₃ = printed at hleft ⊢
      obtain ⟨result, p₄⟩ := printed
      have hfiles : p₄.session.files = p₃.session.files := congrArg (·.files) hleft
      rw [← hfiles] at hdeposited
      cases result <;> exact hdeposited

/-- A run is done if all documents that were built can be written. -/
theorem goes_runSynth_of_writes {docs : List (String × Document)}
    (hbuild : goes (builtDocuments settings build) { p.session with events := [] } = (.ok docs, s))
    (hwrites : Output.Writes s.environment settings.outputDir (.ofSpaces settings.indent) s.files
      (docs.map (·.2))) :
    (goes (runSynth settings isJson target) p).1 = .ok exitDone := by
  obtain ⟨p₂, hsession, hgoes⟩ := exists_goes_orFault (.ok docs) hbuild
  rw [runSynth, goes_bind_of_ok (goes_get p), goes_bind_of_ok (goes_findBuilder hfind)]
  dsimp only
  rw [goes_bind_of_ok hgoes]
  dsimp only
  have hwrites₂ : Output.Writes s.environment settings.outputDir (.ofSpaces settings.indent)
      p₂.session.files (docs.map (·.2)) := by
    rw [hsession]
    exact hwrites
  obtain ⟨paths, p₃, hstored⟩ := exists_goes_store (congrArg Session.environment hsession) hwrites₂
  refine (congrArg Prod.fst (goes_bind_of_ok hstored)).trans ?_
  cases isJson with
  | false => cases paths <;> rfl
  | true =>
    have hwritable : Json.Writable (.record
        [("stacks", .record (paths.map fun x => (x.1, .text x.2)))]) := by
      refine Json.writable_record (List.forall_mem_singleton.mpr (Json.writable_record ?_))
      intro field hfield
      obtain ⟨path, -, rfl⟩ := List.mem_map.mp hfield
      exact Json.writable_scalar rfl
    obtain ⟨p₄, hprinted⟩ :=
      goes_printJson_of_writable hwritable (.ofSpaces settings.indent) p₃
    exact congrArg Prod.fst (goes_bind_of_ok hprinted)

end RunSynth

/-- A script is refused something that it does not get over, or a stack that it declared cannot be
synthesised. -/
inductive Falters (script : Script) (w : Workspace) (a : AppId) (emit : Bool) : Prop
  | script {fault : Fault} (h : (script.run w).1 = .error (.fault fault))
  | stack (h : (script.run w).1 = .ok ()) {entry : String × NodeId}
      (he : entry ∈ ((script.run w).2.app a).registry) {fault : Fault}
      (hfault : ((script.run w).2.synthesize (.atom (.entity (.node entry.2 true))) emit).2 =
        .error fault)

/-- A list of requests falters at a stack that cannot be synthesised. -/
theorem falters_ofCalls {calls : List Call} {w : Workspace} {a : AppId} {emit : Bool}
    {entry : String × NodeId} (he : entry ∈ ((w.run calls).app a).registry) {fault : Fault}
    (hfault : ((w.run calls).synthesize (.atom (.entity (.node entry.2 true))) emit).2 =
      .error fault) : Falters (.ofCalls calls) w a emit := by
  have hrun := Script.run_ofCalls calls w
  have hmem : entry ∈ (((Script.ofCalls calls).run w).2.app a).registry := by rwa [hrun]
  exact .stack (by rw [hrun]) hmem (by rwa [hrun])

/-- Settings as a run has them, with no blanks around their output directory. -/
structure Settled (env : Environment) (settings : Settings) : Prop where
  located : ∃ given, located env given = .ok settings
  strip_eq : Text.strip settings.outputDir = settings.outputDir

/-- The output directory of such settings is absolute and normal as it is used. -/
theorem Settled.absolute_eq {env : Environment} {settings : Settings}
    (hcwd : Path.isAbsolute env.cwd = true) (h : Settled env settings) :
    Path.absolute env (Output.baseDirectory settings.outputDir) =
      Output.baseDirectory settings.outputDir := by
  obtain ⟨⟨given, hlocated⟩, hstrip⟩ := h
  obtain ⟨outdir, houtdir, hlocated⟩ := bind_eq_ok.mp hlocated
  have hsettings : settings.outputDir = outdir := by
    dsimp only at hlocated
    split at hlocated <;>
    · obtain ⟨logFile, -, hlocated⟩ := bind_eq_ok.mp hlocated
      cases hlocated
      rfl
  rw [hsettings] at hstrip ⊢
  obtain ⟨path, rfl⟩ : ∃ path, outdir = Path.absolute env path := by
    unfold locate at houtdir
    split at houtdir
    · cases houtdir
    · exact ⟨_, (Except.ok.inj houtdir).symm.trans (Path.resolve.eq_def ..)⟩
  have hne : Path.absolute env path ≠ "" := by
    obtain ⟨full, hfull, habsolute, -⟩ := Path.exists_absolute_eq hcwd path
    rw [habsolute]
    exact Path.ne_empty_of_isAbsolute (Path.isAbsolute_normalize hfull)
  rw [Output.baseDirectory_of_strip_eq hstrip hne, Path.absolute_absolute hcwd]

/-- The documents of the stacks of an app stand in files, one for each; otherwise only directories
that were missing have been added. The path of a document leads to its file if the directories on it
are there, and so in the output directory of a run unless the stack has a dot or two for a name. The
document is read as it was written and, if its keys are texts, loaded as it was made. -/
structure Delivered (before after : FileTree) (env : Environment) (settings : Settings)
    (w : Workspace) (a : AppId) : Prop where
  nodup_names : ((w.app a).registry.map (·.1)).Nodup
  places_ne : ∀ entry ∈ (w.app a).registry, ∀ other ∈ (w.app a).registry, entry.1 ≠ other.1 →
    Path.components (Output.filePath env settings.outputDir entry.1) ≠
      Path.components (Output.filePath env settings.outputDir other.1)
  document : ∀ entry ∈ (w.app a).registry, ∃ doc text,
    (w.synthesize (.atom (.entity (.node entry.2 true))) settings.emitMetadata).2 = .ok doc ∧
    doc.toJson (.ofSpaces settings.indent) = .ok text ∧
    after.find? (Path.components (Output.filePath env settings.outputDir entry.1)) =
      some (.file (Text.utf8 (text ++ "\n"))) ∧
    (after.readText env (Output.documentPath settings.outputDir entry.1) = .ok (text ++ "\n") ↔
      after.follow env (Output.documentPath settings.outputDir entry.1) =
        .ok (Path.components (Output.filePath env settings.outputDir entry.1), false)) ∧
    (Settled env settings → entry.1 ≠ "." → entry.1 ≠ ".." →
      after.readText env (Output.documentPath settings.outputDir entry.1) = .ok (text ++ "\n")) ∧
    after.readText env (Output.filePath env settings.outputDir entry.1) = .ok (text ++ "\n") ∧
    ((Datum.mapping true doc.blocks).AllKeys Key.AllTexts → ∀ naming,
      Document.load naming (.text (text ++ "\n")) =
        .ok (if settings.emitMetadata then doc else { doc with stackName := "" }))
  keeps : ∀ place, (∀ entry ∈ (w.app a).registry,
      place ≠ Path.components (Output.filePath env settings.outputDir entry.1)) →
    before.Keeps after place

section Delivered

variable {w : Workspace} {a : AppId} {emit : Bool} {docs : List (String × Document)}

/-- The documents of an app have the names of its stacks, in their order. -/
private theorem stackNames_eq (hw : w.Reached)
    (hdocs : List.Forall₂ (w.Becomes emit) (w.app a).registry docs) :
    docs.map (·.2.stackName) = (w.app a).registry.map (·.1) := by
  have hnames : ∀ entry ∈ (w.app a).registry, (w.node entry.2).id = entry.1 := fun _ he =>
    (hw.id_eq_of_mem_registry he).1
  generalize (w.app a).registry = registry at hdocs hnames
  induction hdocs with
  | nil => rfl
  | cons h _ ih =>
    obtain ⟨hname, hnames⟩ := List.forall_mem_cons.mp hnames
    rw [List.map_cons, List.map_cons, ih hnames, h.stackName_eq, hname]

/-- What is in one of two lists that go together has a counterpart in the other. -/
private theorem exists_related {α β : Type} {R : α → β → Prop} {as : List α} {bs : List β}
    (h : List.Forall₂ R as bs) : ∀ a ∈ as, ∃ b ∈ bs, R a b := by
  induction h with
  | nil => simp
  | cons h _ ih =>
    refine List.forall_mem_cons.mpr ⟨⟨_, List.mem_cons_self, h⟩, fun a ha => ?_⟩
    obtain ⟨b, hb, hab⟩ := ih a ha
    exact ⟨b, List.mem_cons_of_mem _ hb, hab⟩

/-- Each document made is that of a stack, and has its name. -/
private theorem exists_entry (hw : w.Reached)
    (hdocs : List.Forall₂ (w.Becomes emit) (w.app a).registry docs) {d : String × Document}
    (hd : d ∈ docs) :
    ∃ entry ∈ (w.app a).registry, w.Becomes emit entry d ∧ d.2.stackName = entry.1 := by
  obtain ⟨entry, he, hbecomes⟩ :=
    exists_related (List.Forall₂.flip (R := flip (w.Becomes emit)) hdocs) d hd
  exact ⟨entry, he, hbecomes, hbecomes.stackName_eq.trans (hw.id_eq_of_mem_registry he).1⟩

/-- A document is read where its path leads to its file. -/
private theorem readText_eq_ok_iff {t : FileTree} {env : Environment} {outdir name text : String}
    {bytes : List UInt8} (hcwd : Path.isAbsolute env.cwd = true)
    (hfind : t.find? (Path.components (Output.filePath env outdir name)) = some (.file bytes))
    (htext : FileTree.textOf bytes = .ok text) :
    t.readText env (Output.documentPath outdir name) = .ok text ↔
      t.follow env (Output.documentPath outdir name) =
        .ok (Path.components (Output.filePath env outdir name), false) := by
  constructor
  · intro hread
    obtain ⟨found, hfound, -⟩ := bind_eq_ok.mp hread
    obtain ⟨place, hfollow, -⟩ := FileTree.readBytes_eq_ok.mp hfound
    exact hfollow.trans
      (congrArg _ (FileTree.components_of_follow_join hcwd Output.isName_fileName hfollow))
  · intro hfollow
    rw [FileTree.readText, FileTree.readBytes_eq_ok.mpr ⟨_, hfollow, hfind⟩]
    exact htext

/-- Documents of all stacks of an app that are deposited are delivered. -/
private theorem delivered_of_deposited {before after : FileTree} {env : Environment}
    {settings : Settings} (hw : w.Reached) (hcwd : Path.isAbsolute env.cwd = true)
    (hdocs : List.Forall₂ (w.Becomes settings.emitMetadata) (w.app a).registry docs)
    (h : Output.Deposited before after env settings.outputDir (.ofSpaces settings.indent)
      (docs.map (·.2))) : Delivered before after env settings w a := by
  have hentry {entry : String × NodeId} (he : entry ∈ (w.app a).registry) :=
    hw.id_eq_of_mem_registry he
  refine ⟨hw.registered.nodup_names a, fun entry he other ho hne heq => ?_, fun entry he => ?_,
    fun place hplace => h.keeps place fun doc hdoc => ?_⟩
  · exact hne (Output.filePath_inj hcwd (hentry he).2 (hentry ho).2 heq)
  · obtain ⟨d, hd, hbecomes⟩ := exists_related hdocs entry he
    have hname : d.2.stackName = entry.1 := hbecomes.stackName_eq.trans (hentry he).1
    obtain ⟨text, htext, hfind, hread⟩ := h.written d.2 (List.mem_map_of_mem hd)
    rw [hname] at hfind hread
    have hread' : after.readText env (Output.filePath env settings.outputDir entry.1) =
        .ok (text ++ "\n") := by
      rw [FileTree.readText, hread]
      exact Document.textOf_toJson htext
    refine ⟨d.2, text, hbecomes.2, htext, hfind, ?_, fun hsettled hdot hdots => ?_, hread',
      fun htexts naming => hw.load_line hbecomes.2 htexts htext naming⟩
    · exact readText_eq_ok_iff hcwd hfind (Document.textOf_toJson htext)
    · rwa [← Output.filePath_eq_documentPath hcwd (hsettled.absolute_eq hcwd) (hentry he).2 hdot hdots]
  · obtain ⟨d, hd, rfl⟩ := List.mem_map.mp hdoc
    obtain ⟨entry, he, -, heq⟩ := exists_entry hw hdocs hd
    rw [heq]
    exact hplace entry he

end Delivered

/-- Synthesis of a project is done if the builder is, each stack becomes a document that has a text,
and the paths of the documents receive them. -/
theorem synth_done {settings : Settings} {isJson : Bool} {target : String} {p : Execution}
    {script : AppId → Script} {w : Workspace} {a : AppId} (hw : p.session.workspace.Reached)
    (hfind : findBuilder p.modules target = .ok (.ok fun a => (script a).work))
    (hcreate : p.session.workspace.createApp settings.outputDir = (w, a))
    (hscope : (script a).InScope w) (hdone : ((script a).run w).1 = .ok ())
    (hstacks : ∀ entry ∈ (((script a).run w).2.app a).registry, (∃ doc text,
      (((script a).run w).2.synthesize (.atom (.entity (.node entry.2 true)))
        settings.emitMetadata).2 = .ok doc ∧ doc.toJson (.ofSpaces settings.indent) = .ok text) ∧
      p.session.files.Receives p.session.environment
        (Output.filePath p.session.environment settings.outputDir entry.1)) :
    (goes (runCommand settings isJson (.synth target)) p).1 = .ok exitDone := by
  obtain ⟨result, s, hbuild, hfiles, henv, hturnout⟩ :=
    turnout_builtDocuments (s := { p.session with events := [] }) hw hcreate hscope
  have hreached := Script.reached_run (reached_createApp hw hcreate) hscope
  dsimp only at hfiles henv
  rw [← hfiles, ← henv] at hstacks
  rw [runCommand]
  cases hturnout with
  | stopped h => cases hdone.symm.trans h
  | refused _ he hnone =>
    obtain ⟨⟨doc, text, hdoc, -⟩, -⟩ := hstacks _ he
    exact absurd ⟨rfl, hdoc⟩ (hnone (_, doc))
  | @made _ docs hdocs =>
    refine goes_runSynth_of_writes isJson hfind hbuild (Output.writes_of_receives ?_)
    intro doc hdoc
    obtain ⟨d, hd, rfl⟩ := List.mem_map.mp hdoc
    obtain ⟨entry, he, hbecomes, hname⟩ := exists_entry hreached hdocs hd
    obtain ⟨⟨doc, text, hmade, htext⟩, hreceives⟩ := hstacks entry he
    obtain rfl := Except.ok.inj (hmade.symm.trans hbecomes.2)
    exact ⟨⟨text, htext⟩, hname ▸ hreceives⟩

section Synth

variable {settings : Settings} {isJson : Bool} {target : String} {p : Execution}
  {script : AppId → Script} {w : Workspace} {a : AppId} (hw : p.session.workspace.Reached)
  (hfind : findBuilder p.modules target = .ok (.ok fun a => (script a).work))
  (hcreate : p.session.workspace.createApp settings.outputDir = (w, a))
  (hscope : (script a).InScope w)
include hw hfind hcreate hscope

/-- If the builder or the synthesis of any stack fails, no document is written and the run ends with
the exit code for that. -/
private theorem synth_of_falters (hfalters : Falters (script a) w a settings.emitMetadata) :
    (goes (runCommand settings isJson (.synth target)) p).1 = .ok exitNoMatch ∧
      (goes (runCommand settings isJson (.synth target)) p).2.session.files = p.session.files := by
  obtain ⟨result, s, hbuild, hfiles, -, hturnout⟩ :=
    turnout_builtDocuments (s := { p.session with events := [] }) hw hcreate hscope
  dsimp only at hfiles
  rw [runCommand, ← hfiles]
  cases hturnout with
  | @stopped failure h =>
    cases hfalters with
    | @script fault h' =>
      cases h.symm.trans h'
      exact goes_runSynth_of_fault isJson hfind hbuild
    | stack h' => cases h.symm.trans h'
  | refused => exact goes_runSynth_of_fault isJson hfind hbuild
  | made h hdocs =>
    cases hfalters with
    | script h' => cases h.symm.trans h'
    | stack _ he hfault =>
      obtain ⟨d, -, hbecomes⟩ := exists_related hdocs _ he
      cases hbecomes.2.symm.trans hfault

/-- If the run is done, then the builder is, and the documents of all stacks are delivered. -/
private theorem delivered_of_synth (hcwd : Path.isAbsolute p.session.environment.cwd = true)
    (hdone : (goes (runCommand settings isJson (.synth target)) p).1 = .ok exitDone) :
    ((script a).run w).1 = .ok () ∧
      Delivered p.session.files
        (goes (runCommand settings isJson (.synth target)) p).2.session.files
        p.session.environment settings ((script a).run w).2 a := by
  obtain ⟨result, s, hbuild, hfiles, henv, hturnout⟩ :=
    turnout_builtDocuments (s := { p.session with events := [] }) hw hcreate hscope
  have hreached := Script.reached_run (reached_createApp hw hcreate) hscope
  dsimp only at hfiles henv
  rw [runCommand] at hdone ⊢
  rw [← hfiles, ← henv]
  rw [← henv] at hcwd
  cases hturnout with
  | @stopped failure h =>
    by_cases hfault : ∃ fault, failure = .fault fault
    · obtain ⟨fault, rfl⟩ := hfault
      rw [(goes_runSynth_of_fault isJson hfind hbuild).1] at hdone
      cases hdone
    · rw [goes_runSynth_of_failure isJson hfind (not_exists.mp hfault) hbuild] at hdone
      cases hdone
  | refused =>
    rw [(goes_runSynth_of_fault isJson hfind hbuild).1] at hdone
    cases hdone
  | @made h docs hdocs =>
    have hnodup := hreached.registered.nodup_names a
    rw [← stackNames_eq hreached hdocs] at hnodup
    refine ⟨h, delivered_of_deposited hreached hcwd hdocs
      (deposited_of_goes_runSynth isJson hfind hbuild hcwd (fun d hd => ?_) hnodup hdone)⟩
    obtain ⟨entry, he, -, heq⟩ := exists_entry hreached hdocs hd
    exact heq.symm ▸ (hreached.id_eq_of_mem_registry he).2

/-- Synthesis of a project writes no document if the builder or the synthesis of any stack fails, and
the run ends with the exit code for that; and if the run is done, the documents of all stacks are
delivered. -/
theorem synth_allOrNothing (hcwd : Path.isAbsolute p.session.environment.cwd = true) :
    (Falters (script a) w a settings.emitMetadata →
      (goes (runCommand settings isJson (.synth target)) p).1 = .ok exitNoMatch ∧
        (goes (runCommand settings isJson (.synth target)) p).2.session.files = p.session.files) ∧
    ((goes (runCommand settings isJson (.synth target)) p).1 = .ok exitDone →
      ((script a).run w).1 = .ok () ∧
        Delivered p.session.files
          (goes (runCommand settings isJson (.synth target)) p).2.session.files
          p.session.environment settings ((script a).run w).2 a) :=
  ⟨synth_of_falters hw hfind hcreate hscope, delivered_of_synth hw hfind hcreate hscope hcwd⟩

end Synth

/-- Requests of a builder that declares two stacks, the second of which points at a block. -/
def pairCalls (block : NodeId) : List Call :=
  [.createStack 0 (.text "net"), .createStack 0 (.text "app"),
    .addBlock 0 .resource (.text "vpc") (.text "main") .null,
    .addBlock 1 .resource (.text "vm") (.text "a") .null,
    .addOutput 1 (.text "vm") (.atom (.reference ⟨block, "id"⟩)) .null .null]

/-- Directories for the documents of the two stacks. -/
def pairTree : FileTree where
  entries := [(["work"], .directory), (["work", "cdktf.out"], .directory),
    (["work", "cdktf.out", "stacks"], .directory),
    (["work", "cdktf.out", "stacks", "net"], .directory),
    (["work", "cdktf.out", "stacks", "app"], .directory)]

/-- Settings of a run in the directory above those. -/
def pairSettings : Settings := { Settings.defaults with outputDir := "/work/cdktf.out" }

/-- A run has such settings. -/
private theorem settled_pairSettings : Settled ⟨"/work", []⟩ pairSettings := by
  have hdir : locate ⟨"/work", []⟩ "/work/cdktf.out" Workspace.defaultOutdir =
      .ok "/work/cdktf.out" := by
    rw [← toOption_eq_some]
    decide +kernel
  refine ⟨⟨pairSettings, ?_⟩, by decide +kernel⟩
  rw [located, pairSettings]
  dsimp only
  rw [hdir]
  rfl

/-- A project with that builder and those directories. -/
def pairProject (block : NodeId) : Execution where
  session := { environment := ⟨"/work", []⟩, files := pairTree }
  modules := [("pair", [("build", .builder fun _ => (Script.ofCalls (pairCalls block)).work)])]
  time := ""

/-- A file can be put into a directory of a stack. -/
private theorem receives_pairTree {name path directory : String}
    (hnull : '\x00' ∉ path.toList ∧ '\x00' ∉ directory.toList)
    (hpath : Output.filePath ⟨"/work", []⟩ "/work/cdktf.out" name = path)
    (h : (Path.directory (Path.absolute ⟨"/work", []⟩ path) = directory ∧
        (FileTree.lastStep directory).1 = "/work/cdktf.out/stacks") ∧
      (pairTree.locate "/work" directory).toOption.bind (fun r => pairTree.find? r.1) =
        some .directory ∧
      (pairTree.locate "/work" path).toOption.map (fun r => pairTree.find? r.1) = some none ∧
      pairTree.isSlashed ⟨"/work", []⟩ path = false) :
    pairTree.Receives ⟨"/work", []⟩ (Output.filePath ⟨"/work", []⟩ "/work/cdktf.out" name) := by
  have habove : (pairTree.locate "/work" "/work/cdktf.out/stacks").toOption.bind
      (fun r => pairTree.find? r.1) = some .directory := by decide +kernel
  obtain ⟨hpaths, hdirectory, hfree, hslashed⟩ := h
  rw [hpath]
  exact FileTree.receives_of_locate ⟨hnull.1, hnull.2, by simp⟩ hpaths habove hdirectory hfree hslashed

/-- The workspace that the builder leaves. -/
def pairBuilt (block : NodeId) : Workspace :=
  (({} : Workspace).createApp "/work/cdktf.out").1.run (pairCalls block)

/-- What synthesis and printing both answer is there. -/
private theorem exists_text_of_isSome {made : Except Fault Document}
    (h : (made.toOption.bind fun doc => (doc.toJson (.ofSpaces 2)).toOption).isSome) :
    ∃ doc text, made = .ok doc ∧ doc.toJson (.ofSpaces 2) = .ok text := by
  obtain ⟨text, h⟩ := Option.isSome_iff_exists.mp h
  obtain ⟨doc, hdoc, htext⟩ := Option.bind_eq_some_iff.mp h
  exact ⟨doc, text, toOption_eq_some.mp hdoc, toOption_eq_some.mp htext⟩

/-- Both stacks become documents that have a text. -/
private theorem exists_text_pairBuilt : ∀ entry ∈ ((pairBuilt 3).app 0).registry, ∃ doc text,
    ((pairBuilt 3).synthesize (.atom (.entity (.node entry.2 true))) true).2 = .ok doc ∧
      doc.toJson (.ofSpaces 2) = .ok text := by
  have hmade : ∀ entry ∈ ((pairBuilt 3).app 0).registry, (((pairBuilt 3).synthesize
      (.atom (.entity (.node entry.2 true))) true).2.toOption.bind
        fun doc => (doc.toJson (.ofSpaces 2)).toOption).isSome := by decide +kernel
  exact fun entry he => exists_text_of_isSome (hmade entry he)

/-- The paths of both documents receive them. -/
private theorem receives_of_mem_registry : ∀ entry ∈ ((pairBuilt 3).app 0).registry,
    pairTree.Receives ⟨"/work", []⟩ (Output.filePath ⟨"/work", []⟩ "/work/cdktf.out" entry.1) := by
  have hregistry : ((pairBuilt 3).app 0).registry = [("net", 0), ("app", 1)] := by decide +kernel
  rw [hregistry]
  refine List.forall_mem_cons.mpr ⟨?_, List.forall_mem_singleton.mpr ?_⟩
  · exact @receives_pairTree "net" "/work/cdktf.out/stacks/net/cdk.tf.json"
      "/work/cdktf.out/stacks/net" (by simp) (by decide +kernel) (by decide +kernel)
  · exact @receives_pairTree "app" "/work/cdktf.out/stacks/app/cdk.tf.json"
      "/work/cdktf.out/stacks/app" (by simp) (by decide +kernel) (by decide +kernel)

/-- A second stack that points into the first leaves no document of either; one that points at a
block of its own leaves the documents of both. -/
theorem synth_allOrNothing_pair :
    ((goes (runCommand pairSettings false (.synth "pair:build")) (pairProject 2)).1 = .ok exitNoMatch ∧
      (goes (runCommand pairSettings false (.synth "pair:build")) (pairProject 2)).2.session.files =
        pairTree) ∧
    (goes (runCommand pairSettings false (.synth "pair:build")) (pairProject 3)).1 = .ok exitDone ∧
      Settled ⟨"/work", []⟩ pairSettings ∧ Delivered pairTree
        (goes (runCommand pairSettings false (.synth "pair:build")) (pairProject 3)).2.session.files
        ⟨"/work", []⟩ pairSettings (pairBuilt 3) 0 := by
  have hcwd : Path.isAbsolute "/work" = true := rfl
  have hscope (block : NodeId) (h : block = 2 ∨ block = 3) :
      (Script.ofCalls (pairCalls block)).InScope (({} : Workspace).createApp "/work/cdktf.out").1 := by
    rw [Script.inScope_ofCalls]
    rcases h with rfl | rfl <;> decide +kernel
  have hpair (block : NodeId) (h : block = 2 ∨ block = 3) :=
    @synth_allOrNothing pairSettings false "pair:build" (pairProject block)
      (fun _ => Script.ofCalls (pairCalls block)) _ _ .start rfl rfl (hscope block h) hcwd
  simp only [Script.run_ofCalls] at hpair
  constructor
  · refine (hpair 2 (.inl rfl)).1 ?_
    have hmem : ("app", 1) ∈ ((pairBuilt 2).app 0).registry := by decide +kernel
    have hfails : ((pairBuilt 2).synthesize (.atom (.entity (.node 1 true))) true).2.isOk = false := by
      decide +kernel
    cases h : ((pairBuilt 2).synthesize (.atom (.entity (.node 1 true))) true).2 with
    | ok doc =>
      rw [h] at hfails
      cases hfails
    | error fault => exact falters_ofCalls hmem h
  · have hdone : (goes (runCommand pairSettings false (.synth "pair:build")) (pairProject 3)).1 =
        .ok exitDone := by
      refine @synth_done pairSettings false "pair:build" (pairProject 3)
        (fun _ => Script.ofCalls (pairCalls 3)) _ _ .start rfl rfl (hscope 3 (.inr rfl)) ?_ ?_
      · rw [Script.run_ofCalls]
      · simp only [Script.run_ofCalls]
        exact fun entry he => ⟨exists_text_pairBuilt entry he, receives_of_mem_registry entry he⟩
    exact ⟨hdone, settled_pairSettings, ((hpair 3 (.inr rfl)).2 hdone).2⟩

/-- A project whose builder declares a stack with two dots for a name, in a directory where a file
has the name of the directory of the stacks. -/
def dotsProject : Execution where
  session :=
    { environment := ⟨"/work", []⟩
      files := { entries := [(["work"], .directory), (["work", "cdktf.out"], .directory),
        (["work", "cdktf.out", "stacks"], .file [])] } }
  modules := [("dots", [("build", .builder fun _ =>
    (Script.ofCalls [.createStack 0 (.text "..")]).work)])]
  time := ""

/-- The workspace that the builder leaves. -/
def dotsBuilt : Workspace :=
  (({} : Workspace).createApp "/work/cdktf.out").1.run [.createStack 0 (.text "..")]

/-- Its document can be put beside that file. -/
private theorem receives_dots : dotsProject.session.files.Receives ⟨"/work", []⟩
    (Output.filePath ⟨"/work", []⟩ "/work/cdktf.out" "..") := by
  have hpath : Output.filePath ⟨"/work", []⟩ "/work/cdktf.out" ".." =
      "/work/cdktf.out/cdk.tf.json" := by decide +kernel
  rw [hpath]
  exact @FileTree.receives_of_locate _ _ _ "/work/cdktf.out" "/work" (by simp)
    ⟨by decide +kernel, by decide +kernel⟩ (by decide +kernel) (by decide +kernel)
    (by decide +kernel) (by decide +kernel)

/-- The path of the document of that stack leads nowhere where the directory of the stacks is a
file. -/
private theorem readText_dots {t : FileTree}
    (h : t.find? ["work", "cdktf.out", "stacks"] = some (.file [])) (text : String) :
    t.readText ⟨"/work", []⟩ (Output.documentPath "/work/cdktf.out" "..") ≠ .ok text := by
  intro hread
  obtain ⟨bytes, hfound, -⟩ := bind_eq_ok.mp hread
  obtain ⟨place, hfollow, -⟩ := FileTree.readBytes_eq_ok.mp hfound
  obtain ⟨-, -, directory, hreach, -⟩ :=
    (FileTree.follow_join_eq_ok Output.isName_fileName).mp hfollow
  -- the two dots are the last step, after the directory of the stacks
  have hsplit : Text.split '/' (Output.stackDirectory "/work/cdktf.out" "..") =
      Text.split '/' (Path.join "/work/cdktf.out" Output.stacksName) ++ [".."] := by decide +kernel
  have horigin : FileTree.origin ⟨"/work", []⟩ (Output.stackDirectory "/work/cdktf.out" "..") =
      FileTree.origin ⟨"/work", []⟩ (Path.join "/work/cdktf.out" Output.stacksName) := by
    decide +kernel
  rw [FileTree.reach, hsplit, horigin, FileTree.descend_append] at hreach
  obtain ⟨above, habove, -⟩ := bind_eq_ok.mp hreach
  rw [← FileTree.reach, FileTree.reach_join_eq_ok Output.isName_stacksName] at habove
  obtain ⟨-, base, hbase, hfind, -⟩ := habove
  have hcomponents : Path.components (Path.absolute ⟨"/work", []⟩ "/work/cdktf.out") =
      ["work", "cdktf.out"] := by decide +kernel
  rw [FileTree.components_of_reach rfl hbase, hcomponents] at hfind
  cases h.symm.trans hfind

/-- A run that is done need not leave a document at its path if a stack has two dots for a name. -/
theorem synth_dots :
    (goes (runCommand pairSettings false (.synth "dots:build")) dotsProject).1 = .ok exitDone ∧
      Settled ⟨"/work", []⟩ pairSettings ∧ ("..", 0) ∈ (dotsBuilt.app 0).registry ∧
      ∀ text, (goes (runCommand pairSettings false (.synth "dots:build"))
        dotsProject).2.session.files.readText ⟨"/work", []⟩
          (Output.documentPath pairSettings.outputDir "..") ≠ .ok text := by
  have hregistry : (dotsBuilt.app 0).registry = [("..", 0)] := by decide +kernel
  have hscope : (Script.ofCalls [.createStack 0 (.text "..")]).InScope
      (({} : Workspace).createApp "/work/cdktf.out").1 := by
    rw [Script.inScope_ofCalls]
    decide +kernel
  have hdone : (goes (runCommand pairSettings false (.synth "dots:build")) dotsProject).1 =
      .ok exitDone := by
    refine @synth_done pairSettings false "dots:build" dotsProject
      (fun _ => Script.ofCalls [.createStack 0 (.text "..")]) _ _ .start rfl rfl hscope ?_ ?_
    · rw [Script.run_ofCalls]
    · simp only [Script.run_ofCalls]
      have hmade : ∀ entry ∈ (dotsBuilt.app 0).registry, ((dotsBuilt.synthesize
          (.atom (.entity (.node entry.2 true))) true).2.toOption.bind
            fun doc => (doc.toJson (.ofSpaces 2)).toOption).isSome := by decide +kernel
      refine fun entry he => ⟨exists_text_of_isSome (hmade entry he), ?_⟩
      rw [(List.mem_singleton.mp (hregistry ▸ he) : entry = ("..", 0))]
      exact receives_dots
  refine ⟨hdone, settled_pairSettings, by decide +kernel, fun text => readText_dots ?_ text⟩
  obtain ⟨-, hdelivered⟩ := @delivered_of_synth pairSettings false "dots:build" dotsProject
    (fun _ => Script.ofCalls [.createStack 0 (.text "..")]) _ _ .start rfl rfl hscope rfl hdone
  rw [Script.run_ofCalls] at hdelivered
  refine (hdelivered.keeps ["work", "cdktf.out", "stacks"] ?_).find?_eq rfl
  change ∀ entry ∈ (dotsBuilt.app 0).registry, _
  rw [hregistry]
  exact List.forall_mem_singleton.mpr (by decide +kernel)

end CommandLine.Run

end Groundplan
