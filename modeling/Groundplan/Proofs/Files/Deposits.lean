import Groundplan.Output
import Groundplan.Proofs.Files.Writing
import Groundplan.Proofs.Workspace.Lineage

/-!
# Where documents go

The document of a stack is written to a path that spells the directory of the stacks, the stack's
name and the name of the file, unless the stack's name is a dot or two: these stand for the
directory of the stacks and for the one before it. In any case stacks with different names have
different paths.
-/

namespace Groundplan.Output

variable {env : Environment} {outdir name : String}

/-- The output directory as it is used: without blanks around it, or the default one. -/
def baseDirectory (outdir : String) : String :=
  if (Text.strip outdir).isEmpty then Workspace.defaultOutdir else Text.strip outdir

/-- The components, the last of which comes first, of the output directory. -/
def baseComponents (env : Environment) (outdir : String) : List String :=
  Path.through (Path.start env (baseDirectory outdir)) (baseDirectory outdir)

/-- The absolute path of a stack's document. -/
def filePath (env : Environment) (outdir name : String) : String :=
  Path.absolute env (documentPath outdir name)

/-- The components of that path. -/
def place (env : Environment) (outdir name : String) : List String :=
  (fileName :: Path.pushComponent true (stacksName :: baseComponents env outdir) name).reverse

theorem baseDirectory_ne_empty (outdir : String) : baseDirectory outdir ≠ "" := by
  unfold baseDirectory
  split
  · simp [Workspace.defaultOutdir]
  · next h => simpa [String.isEmpty_iff] using h

theorem isName_stacksName : Path.IsName stacksName := by constructor <;> simp [stacksName]

theorem isName_fileName : Path.IsName fileName := by constructor <;> simp [fileName]

/-- The absolute path of a document spells its place. -/
theorem spells_filePath (hcwd : Path.isAbsolute env.cwd = true) (outdir : String)
    (hname : '/' ∉ name.toList) :
    Path.Spells (filePath env outdir name) (place env outdir name) := by
  have hstacks := isName_stacksName
  have hfile := isName_fileName
  have hbase := baseDirectory_ne_empty outdir
  have habove := Path.join_ne_empty (Path.isAbsolute_of_not_mem hstacks.slash_not_mem) hbase
  have hwithin := Path.join_ne_empty (Path.isAbsolute_of_not_mem hname) habove
  have hstart : Path.start env (documentPath outdir name) = Path.start env (baseDirectory outdir) :=
    calc
      _ = Path.start env (stackDirectory outdir name) :=
          Path.start_join (Path.isAbsolute_of_not_mem hfile.slash_not_mem) hwithin
      _ = Path.start env (Path.join (baseDirectory outdir) stacksName) :=
          Path.start_join (Path.isAbsolute_of_not_mem hname) habove
      _ = Path.start env (baseDirectory outdir) :=
          Path.start_join (Path.isAbsolute_of_not_mem hstacks.slash_not_mem) hbase
  have hthrough {kept : List String} : Path.through kept (documentPath outdir name) =
      fileName :: Path.pushComponent true
        (stacksName :: Path.through kept (baseDirectory outdir)) name :=
    calc
      _ = Path.through (Path.through kept (stackDirectory outdir name)) fileName :=
          Path.through_join (Path.isAbsolute_of_not_mem hfile.slash_not_mem) _
      _ = fileName :: Path.through kept (stackDirectory outdir name) := by
          rw [Path.through_of_not_mem hfile.slash_not_mem, Path.pushComponent_of_isName hfile]
      _ = fileName :: Path.through
            (Path.through kept (Path.join (baseDirectory outdir) stacksName)) name :=
          congrArg _ (Path.through_join (Path.isAbsolute_of_not_mem hname) _)
      _ = _ := by
          rw [Path.through_of_not_mem hname,
            Path.through_join (Path.isAbsolute_of_not_mem hstacks.slash_not_mem),
            Path.through_of_not_mem hstacks.slash_not_mem, Path.pushComponent_of_isName hstacks]
  have hsomewhere : Path.through (Path.start env (documentPath outdir name))
      (documentPath outdir name) ≠ [] := by simp [hthrough]
  have hspells := Path.spells_absolute hcwd hsomewhere
  rwa [hstart, hthrough] at hspells

private theorem place_inj {name' : String} (hne : name ≠ "") (hne' : name' ≠ "")
    (h : place env outdir name = place env outdir name') : name = name' := by
  have hpush := (List.cons.inj (List.reverse_inj.mp h)).2
  generalize baseComponents env outdir = base at hpush
  have hpushed {name : String} (hne : name ≠ "") :
      Path.pushComponent true (stacksName :: base) name =
        if name = "." then stacksName :: base
        else if name = ".." then base
        else name :: stacksName :: base := by
    by_cases hdot : name = "." <;> by_cases hdots : name = ".." <;>
      simp [Path.pushComponent, hne, hdot, hdots, stacksName]
  rw [hpushed hne, hpushed hne'] at hpush
  -- the three forms differ in length
  have hlength := congrArg List.length hpush
  grind

/-- Stacks with different names have documents in different places. -/
theorem filePath_inj (hcwd : Path.isAbsolute env.cwd = true) {name' : String}
    (hname : IsIdentifier name) (hname' : IsIdentifier name')
    (h : Path.components (filePath env outdir name) = Path.components (filePath env outdir name')) :
    name = name' := by
  rw [(spells_filePath hcwd outdir hname.2).components_eq,
    (spells_filePath hcwd outdir hname'.2).components_eq] at h
  exact place_inj (Workspace.ne_empty_of_isIdentifier hname)
    (Workspace.ne_empty_of_isIdentifier hname') h

/-- The answer for a document that is written is its absolute path, to which its text went. -/
theorem writeText_of_writeDocument {t t' : FileTree} {doc : Document} {layout : Json.Layout}
    {path : String} (h : writeDocument t env doc outdir layout = (t', .ok path)) :
    path = filePath env outdir doc.stackName ∧ ∃ text, doc.toJson layout = .ok text ∧
      t.writeText env (filePath env outdir doc.stackName) (text ++ "\n") = (t', .ok ()) := by
  rw [writeDocument] at h
  rw [filePath]
  generalize Path.absolute env (documentPath outdir doc.stackName) = path' at h ⊢
  cases htext : doc.toJson layout with
  | error fault =>
    simp only [htext] at h
    cases h
  | ok text =>
    simp only [htext] at h
    cases hwrite : t.writeText env path' (text ++ "\n") with
    | mk t'' result =>
      simp only [hwrite] at h
      cases result with
      | error e => cases h
      | ok =>
        cases h
        exact ⟨rfl, text, rfl, hwrite⟩

/-- A document that is written stands where its path leads, and nothing else is changed but for
directories that were missing. -/
theorem wrote_of_writeDocument (hcwd : Path.isAbsolute env.cwd = true) {t t' : FileTree}
    {doc : Document} {layout : Json.Layout} {path : String} (hname : '/' ∉ doc.stackName.toList)
    (h : writeDocument t env doc outdir layout = (t', .ok path)) :
    ∃ text, doc.toJson layout = .ok text ∧
      FileTree.Wrote t t' env (filePath env outdir doc.stackName) (Text.utf8 (text ++ "\n")) := by
  obtain ⟨-, text, htext, hwrite⟩ := writeText_of_writeDocument h
  exact ⟨text, htext, FileTree.wrote_of_writeText (spells_filePath hcwd outdir hname) hwrite⟩

/-- The documents can be written one after the other. -/
inductive Writes (env : Environment) (outdir : String) (layout : Json.Layout) :
    FileTree → List Document → Prop
  | nil (t : FileTree) : Writes env outdir layout t []
  | cons {t t' : FileTree} {doc : Document} {docs : List Document} {path : String}
      (hdoc : writeDocument t env doc outdir layout = (t', .ok path))
      (hdocs : Writes env outdir layout t' docs) : Writes env outdir layout t (doc :: docs)

/-- A document that has a text is put where a path that receives it leads. -/
theorem writeDocument_of_receives {t : FileTree} {doc : Document} {layout : Json.Layout} {text : String}
    (htext : doc.toJson layout = .ok text) (h : t.Receives env (filePath env outdir doc.stackName)) :
    ∃ place, t.find? place ≠ some .directory ∧ writeDocument t env doc outdir layout =
      (t.put place (.file (Text.utf8 (text ++ "\n"))), .ok (filePath env outdir doc.stackName)) := by
  obtain ⟨place, hfree, hwrite⟩ := h.writeText_eq (text ++ "\n")
  rw [filePath] at hwrite ⊢
  exact ⟨place, hfree, by simp only [writeDocument, htext, hwrite]⟩

/-- Documents that have a text can be written to paths that receive them. -/
theorem writes_of_receives {layout : Json.Layout} {docs : List Document} {t : FileTree}
    (h : ∀ doc ∈ docs, (∃ text, doc.toJson layout = .ok text) ∧
      t.Receives env (filePath env outdir doc.stackName)) : Writes env outdir layout t docs := by
  induction docs generalizing t with
  | nil => exact .nil t
  | cons doc docs ih =>
    obtain ⟨⟨⟨text, htext⟩, hreceives⟩, hdocs⟩ := List.forall_mem_cons.mp h
    obtain ⟨place, hfree, hdoc⟩ := writeDocument_of_receives htext hreceives
    exact .cons hdoc (ih fun other hother =>
      ⟨(hdocs other hother).1, (hdocs other hother).2.put hfree _⟩)

/-- The documents stand where their paths lead, and nothing else was changed but for directories that
were missing. -/
structure Deposited (t t' : FileTree) (env : Environment) (outdir : String) (layout : Json.Layout)
    (docs : List Document) : Prop where
  keepsDirectories : FileTree.KeepsDirectories t t'
  keeps : ∀ other, (∀ doc ∈ docs, other ≠ Path.components (filePath env outdir doc.stackName)) →
    FileTree.Keeps t t' other
  written : ∀ doc ∈ docs, ∃ text, doc.toJson layout = .ok text ∧
    t'.find? (Path.components (filePath env outdir doc.stackName)) =
      some (.file (Text.utf8 (text ++ "\n"))) ∧
    t'.readBytes env (filePath env outdir doc.stackName) = .ok (Text.utf8 (text ++ "\n"))

namespace Deposited

variable {t t' t'' : FileTree} {layout : Json.Layout} {doc : Document} {docs : List Document}

theorem nil (t : FileTree) (env : Environment) (outdir : String) (layout : Json.Layout) :
    Deposited t t env outdir layout [] where
  keepsDirectories _ h := h
  keeps _ _ := .refl ..
  written := by simp

/-- A document that is written first stays where no other is written after it. -/
theorem cons {text : String} (htext : doc.toJson layout = .ok text)
    (hdoc : FileTree.Wrote t t' env (filePath env outdir doc.stackName) (Text.utf8 (text ++ "\n")))
    (hdocs : Deposited t' t'' env outdir layout docs)
    (hne : ∀ other ∈ docs, Path.components (filePath env outdir doc.stackName) ≠
      Path.components (filePath env outdir other.stackName)) :
    Deposited t t'' env outdir layout (doc :: docs) where
  keepsDirectories _ h := hdocs.keepsDirectories _ (hdoc.keepsDirectories _ h)
  keeps other hother := by
    obtain ⟨hfirst, hrest⟩ := List.forall_mem_cons.mp hother
    exact (hdoc.keeps other hfirst).trans (hdocs.keeps other hrest)
  written := by
    have hkept := hdocs.keeps _ hne
    exact List.forall_mem_cons.mpr ⟨⟨text, htext, hkept.find?_eq hdoc.find?_eq,
      hdoc.readBytes_eq hdocs.keepsDirectories hkept⟩, hdocs.written⟩

end Deposited

end Groundplan.Output
