import Groundplan.Proofs.Document.Serializable
import Groundplan.Proofs.Files.TextFile
import Groundplan.Proofs.Json.Lines

/-!
# Documents in files

A document is kept in a file as its JSON text with a line break after it. The text of the file is
what was written, and if all keys of the document are texts, the document is loaded from it as
itself, whoever else has written the containers that it was declared with.
-/

namespace Groundplan

/-- A document's JSON text with a line break after it is read from the bytes that it is written as. -/
theorem Document.textOf_toJson {doc : Document} {n : Int} {text : String}
    (h : doc.toJson (.ofSpaces n) = .ok text) :
    FileTree.textOf (Text.utf8 (text ++ "\n")) = .ok (text ++ "\n") := by
  have hbreak : '\r' ∉ "\n".toList := by simp
  apply FileTree.textOf_utf8
  rw [String.toList_append, List.mem_append, not_or]
  exact ⟨Json.return_not_mem_print h, hbreak⟩

/-- A document with texts for keys is loaded as itself from its JSON text with a line break after it;
without metadata the name of the stack is lost. -/
theorem Workspace.Reached.load_line {w : Workspace} (hw : w.Reached) {stack : NodeId} {emit : Bool}
    {doc : Document} (h : (w.synthesize (.atom (.entity (.node stack true))) emit).2 = .ok doc)
    (htexts : (Datum.mapping true doc.blocks).AllKeys Key.AllTexts) {n : Int} {text : String}
    (htext : doc.toJson (.ofSpaces n) = .ok text) (naming : Naming) :
    Document.load naming (.text (text ++ "\n")) =
      .ok (if emit then doc else { doc with stackName := "" }) := by
  obtain ⟨placed, hs, rfl⟩ := synthesize_eq_ok h
  rw [Document.mapping_blocks_of, Datum.freeze, (Datum.relabels_withFixed true).allKeys_iff] at htexts
  obtain ⟨htyped, htexts⟩ := hs.typed_of_allKeys (fun _ h => h) htexts
  rw [hs.load_toJson_append hw.stored htyped htexts htext (by simp) naming]
  cases emit <;> rfl

end Groundplan
