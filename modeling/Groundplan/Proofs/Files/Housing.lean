import Groundplan.Proofs.Files.Deposits
import Groundplan.Proofs.Files.NormalPaths
import Groundplan.Proofs.Synthesis.Apps

/-!
# Directories of stacks

The document of a stack has a directory of its own: directly below the directory of the stacks,
under the stack's name. That is so for every name that a stack may have but for a dot or two, which
are accepted as names and mean other directories once they stand in a path. Even then no two stacks
of an app share a directory.
-/

namespace Groundplan.Output

variable {env : Environment} {outdir name path : String}

/-- The path leads to a document below the directory of the stacks, in a directory with the stack's
name. -/
structure Housed (env : Environment) (outdir name path : String) : Prop where
  path_eq : path = Path.join (Path.join (Path.join (Path.absolute env (baseDirectory outdir))
    stacksName) name) fileName
  components_eq : Path.components path =
    Path.components (Path.absolute env (baseDirectory outdir)) ++ [stacksName, name, fileName]

/-- The components of the output directory as it is used. -/
theorem components_baseDirectory (hcwd : Path.isAbsolute env.cwd = true) (outdir : String) :
    Path.components (Path.absolute env (baseDirectory outdir)) = (baseComponents env outdir).reverse :=
  Path.components_absolute hcwd _

/-- What the directory of a stack is below the output directory. -/
theorem place_eq (hcwd : Path.isAbsolute env.cwd = true) (outdir : String) (hne : name ≠ "") :
    place env outdir name = Path.components (Path.absolute env (baseDirectory outdir)) ++
      if name = "." then [stacksName, fileName]
      else if name = ".." then [fileName]
      else [stacksName, name, fileName] := by
  rw [components_baseDirectory hcwd, place, List.reverse_cons]
  by_cases hdot : name = "." <;> by_cases hdots : name = ".." <;>
    simp [Path.pushComponent, hne, hdot, hdots, stacksName]

/-- Just a dot or two for a name take a document out of its directory. -/
theorem housed_iff (hcwd : Path.isAbsolute env.cwd = true) (outdir : String) (h : IsIdentifier name) :
    Housed env outdir name (filePath env outdir name) ↔ name ≠ "." ∧ name ≠ ".." := by
  have hne := Workspace.ne_empty_of_isIdentifier h
  have hcomponents := (spells_filePath hcwd outdir h.2).components_eq.trans (place_eq hcwd outdir hne)
  constructor
  · intro hhoused
    rw [hhoused.components_eq, List.append_cancel_left_eq] at hcomponents
    constructor
    · rintro rfl
      simp at hcomponents
    · rintro rfl
      simp at hcomponents
  · rintro ⟨hdot, hdots⟩
    have hname : Path.IsName name := ⟨hne, hdot, hdots, h.2⟩
    rw [if_neg hdot, if_neg hdots] at hcomponents
    refine ⟨?_, hcomponents⟩
    have hbase := baseDirectory_ne_empty outdir
    have habove := Path.join_ne_empty isName_stacksName.isAbsolute_eq hbase
    have hwithin := Path.join_ne_empty hname.isAbsolute_eq habove
    calc filePath env outdir name
      _ = Path.join (Path.absolute env (stackDirectory outdir name)) fileName :=
          Path.absolute_join hcwd hwithin isName_fileName
      _ = Path.join (Path.join (Path.absolute env (Path.join (baseDirectory outdir) stacksName)) name)
            fileName := congrArg (Path.join · fileName) (Path.absolute_join hcwd habove hname)
      _ = _ := by rw [Path.absolute_join hcwd hbase isName_stacksName]

/-- Below an output directory that is absolute and normal as it is used, the path of a document is
the one that it is written to, unless the name is a dot or two. -/
theorem filePath_eq_documentPath (hcwd : Path.isAbsolute env.cwd = true)
    (hbase : Path.absolute env (baseDirectory outdir) = baseDirectory outdir) (h : IsIdentifier name)
    (hdot : name ≠ ".") (hdots : name ≠ "..") : filePath env outdir name = documentPath outdir name := by
  rw [((housed_iff hcwd outdir h).mpr ⟨hdot, hdots⟩).path_eq, hbase]
  rfl

/-- A document with the name was written, with the text, and the answer was the path. -/
def Stores (env : Environment) (outdir name text : String) (t t' : FileTree) (path : String) : Prop :=
  ∃ doc layout, doc.stackName = name ∧ doc.toJson layout = .ok text ∧
    writeDocument t env doc outdir layout = (t', .ok path)

namespace Stores

variable {text : String} {t t' : FileTree}

/-- The answer is the absolute path of the document, and the text went there with a line break. -/
theorem writeText_eq (h : Stores env outdir name text t t' path) :
    path = filePath env outdir name ∧
      t.writeText env (filePath env outdir name) (text ++ "\n") = (t', .ok ()) := by
  obtain ⟨doc, layout, rfl, htext, hwrite⟩ := h
  obtain ⟨hpath, text', htext', hwritten⟩ := writeText_of_writeDocument hwrite
  rw [Except.ok.inj (htext.symm.trans htext')]
  exact ⟨hpath, hwritten⟩

/-- Nothing but the document is written. -/
theorem wrote (hcwd : Path.isAbsolute env.cwd = true) (hname : '/' ∉ name.toList)
    (h : Stores env outdir name text t t' path) :
    FileTree.Wrote t t' env (filePath env outdir name) (Text.utf8 (text ++ "\n")) :=
  FileTree.wrote_of_writeText (spells_filePath hcwd outdir hname) h.writeText_eq.2

end Stores

/-- A document without blocks is put where a path that receives it leads. -/
theorem exists_stores {t : FileTree} (h : t.Receives env (filePath env outdir name)) :
    ∃ text place, t.find? place ≠ some .directory ∧ Stores env outdir name text t
      (t.put place (.file (Text.utf8 (text ++ "\n")))) (filePath env outdir name) := by
  have htext : (⟨name, [], []⟩ : Document).toJson .oneLine = .ok "\x7b\x7d" := rfl
  obtain ⟨place, hfree, hwrite⟩ := writeDocument_of_receives htext h
  exact ⟨_, place, hfree, ⟨name, [], []⟩, .oneLine, rfl, htext, hwrite⟩

/-- Documents with different names are in different directories. -/
theorem dropLast_components_inj (hcwd : Path.isAbsolute env.cwd = true) {name' : String}
    (hname : IsIdentifier name) (hname' : IsIdentifier name')
    (h : (Path.components (filePath env outdir name)).dropLast =
      (Path.components (filePath env outdir name')).dropLast) : name = name' := by
  apply filePath_inj hcwd hname hname'
  have hends {name : String} (hname : IsIdentifier name) :
      Path.components (filePath env outdir name) =
        (Path.components (filePath env outdir name)).dropLast ++ [fileName] := by
    rw [(spells_filePath hcwd outdir hname.2).components_eq, place, List.reverse_cons,
      List.dropLast_concat]
  rw [hends hname, hends hname', h]

end Groundplan.Output

namespace Groundplan

namespace Workspace.Reached

variable {w : Workspace} {a : AppId}

/-- Different stacks of an app have different names. -/
theorem registry_ext (hw : w.Reached) {entry other : String × NodeId}
    (he : entry ∈ (w.app a).registry) (ho : other ∈ (w.app a).registry) (h : entry.1 = other.1) :
    entry = other :=
  List.inj_on_of_nodup_map (hw.registered.nodup_names a) he ho h

end Workspace.Reached

namespace Output

/-- The document of a stack is written to one place and nothing else is. That is in a directory below
that of the stacks, with the name of the stack, unless the name is a dot or two; and in any case the
documents of an app's other stacks are in other directories. -/
theorem documents_housed {w : Workspace} (hw : w.Reached) {env : Environment}
    (hcwd : Path.isAbsolute env.cwd = true) (a : AppId) (outdir : String) :
    ∀ entry ∈ (w.app a).registry,
      (∀ emit doc, (w.synthesize (.atom (.entity (.node entry.2 true))) emit).2 = .ok doc →
        doc.stackName = entry.1) ∧
      ∀ text t t' path, Stores env outdir entry.1 text t t' path →
        FileTree.Wrote t t' env path (Text.utf8 (text ++ "\n")) ∧
        (Housed env outdir entry.1 path ↔ entry.1 ≠ "." ∧ entry.1 ≠ "..") ∧
        ∀ other ∈ (w.app a).registry, other.2 ≠ entry.2 →
          ∀ text' u u' path', Stores env outdir other.1 text' u u' path' →
            (Path.components path').dropLast ≠ (Path.components path).dropLast := by
  intro entry he
  obtain ⟨hid, hname⟩ := hw.id_eq_of_mem_registry he
  constructor
  · intro emit doc hdoc
    have hbecomes : w.Becomes emit entry (entry.1, doc) := ⟨rfl, hdoc⟩
    exact hbecomes.stackName_eq.trans hid
  · intro text t t' path hstores
    have hpath := hstores.writeText_eq.1
    refine ⟨hpath ▸ hstores.wrote hcwd hname.2, hpath ▸ housed_iff hcwd outdir hname, ?_⟩
    intro other ho hne text' u u' path' hother heq
    obtain ⟨-, hname'⟩ := hw.id_eq_of_mem_registry ho
    rw [hpath, hother.writeText_eq.1] at heq
    have hsame := dropLast_components_inj hcwd hname' hname heq
    exact hne (congrArg Prod.snd (hw.registry_ext ho he hsame))

/-- Requests that declare three stacks, one of them with two dots for a name. -/
def neighbourCalls : List Call :=
  [.createApp "", .createStack 0 (.text "net"), .createStack 0 (.text "app"),
    .createStack 0 (.text "..")]

/-- Directories for documents of stacks. -/
def neighbourTree : FileTree where
  entries := [(["work"], .directory), (["work", "out"], .directory),
    (["work", "out", "stacks"], .directory), (["work", "out", "stacks", "net"], .directory),
    (["work", "out", "stacks", "app"], .directory)]

/-- A document can be written into those directories. -/
theorem receives_neighbourTree {path directory above : String}
    (hnull : '\x00' ∉ path.toList ∧ '\x00' ∉ directory.toList ∧ '\x00' ∉ above.toList)
    (h : (Path.directory (Path.absolute ⟨"/work", []⟩ path) = directory ∧
        (FileTree.lastStep directory).1 = above) ∧
      (neighbourTree.locate "/work" above).toOption.bind (fun r => neighbourTree.find? r.1) =
        some .directory ∧
      (neighbourTree.locate "/work" directory).toOption.bind (fun r => neighbourTree.find? r.1) =
        some .directory ∧
      (neighbourTree.locate "/work" path).toOption.map (fun r => neighbourTree.find? r.1) =
        some none ∧
      neighbourTree.isSlashed ⟨"/work", []⟩ path = false) :
    neighbourTree.Receives ⟨"/work", []⟩ path :=
  FileTree.receives_of_locate hnull h.1 h.2.1 h.2.2.1 h.2.2.2.1 h.2.2.2.2

/-- So can that of a stack with a name of its own. -/
theorem receives_net : neighbourTree.Receives ⟨"/work", []⟩ "/work/out/stacks/net/cdk.tf.json" :=
  @receives_neighbourTree _ "/work/out/stacks/net" "/work/out/stacks" (by simp) (by decide +kernel)

/-- A stack's document goes to a directory with its name, and no other stack's goes there. -/
theorem documents_housed_net :
    (∃ text t', Stores ⟨"/work", []⟩ " out" "net" text neighbourTree t'
        "/work/out/stacks/net/cdk.tf.json" ∧
      FileTree.Wrote neighbourTree t' ⟨"/work", []⟩ "/work/out/stacks/net/cdk.tf.json"
        (Text.utf8 (text ++ "\n"))) ∧
    Housed ⟨"/work", []⟩ " out" "net" "/work/out/stacks/net/cdk.tf.json" ∧
    ∀ text u u' path, Stores ⟨"/work", []⟩ " out" ".." text u u' path →
      (Path.components path).dropLast ≠ ["work", "out", "stacks", "net"] := by
  have hw : (Workspace.run {} neighbourCalls).Reached := Workspace.Reached.start.run (by decide +kernel)
  have hnet : ("net", 0) ∈ ((Workspace.run {} neighbourCalls).app 0).registry := by decide +kernel
  have hdots : ("..", 2) ∈ ((Workspace.run {} neighbourCalls).app 0).registry := by decide +kernel
  have hpath : filePath ⟨"/work", []⟩ " out" "net" = "/work/out/stacks/net/cdk.tf.json" := by
    decide +kernel
  obtain ⟨text, place, -, hstores⟩ := exists_stores (hpath ▸ receives_net)
  rw [hpath] at hstores
  obtain ⟨-, h⟩ := @documents_housed _ hw ⟨"/work", []⟩ rfl 0 " out" _ hnet
  obtain ⟨hwrote, hhoused, hothers⟩ := h text _ _ _ hstores
  exact ⟨⟨text, _, hstores, hwrote⟩, hhoused.mpr (by decide), hothers _ hdots (by decide)⟩

/-- A stack may have two dots for a name, and then its document is not below the directory of the
stacks. -/
theorem stores_dots :
    ("..", 2) ∈ ((Workspace.run {} neighbourCalls).app 0).registry ∧
    (∃ text t', Stores ⟨"/work", []⟩ " out" ".." text neighbourTree t' "/work/out/cdk.tf.json") ∧
    ¬ Housed ⟨"/work", []⟩ " out" ".." "/work/out/cdk.tf.json" := by
  refine ⟨by decide +kernel, ?_, fun h => ?_⟩
  · have hpath : filePath ⟨"/work", []⟩ " out" ".." = "/work/out/cdk.tf.json" := by decide +kernel
    have hreceives : neighbourTree.Receives ⟨"/work", []⟩ "/work/out/cdk.tf.json" :=
      @receives_neighbourTree _ "/work/out" "/work" (by simp) (by decide +kernel)
    obtain ⟨text, place, -, hstores⟩ := exists_stores (hpath ▸ hreceives)
    exact ⟨text, _, hpath ▸ hstores⟩
  · have hcomponents : Path.components "/work/out/cdk.tf.json" ≠
        Path.components (Path.absolute ⟨"/work", []⟩ (baseDirectory " out")) ++
          [stacksName, "..", fileName] := by decide +kernel
    exact hcomponents h.components_eq

end Output

end Groundplan
