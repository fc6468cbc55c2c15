import Groundplan.Proofs.Heap.Overriding
import Groundplan.Proofs.Text.Split
import Groundplan.Proofs.Workspace.Acceptance
import Groundplan.Proofs.Workspace.Frame

/-!
# Overrides of a block's properties

An override of a block that is still open is answered for every path of segments and every value
that a property may be, and then holds of the block's properties what `Heap.Overridden` says. Two of
them on paths of which neither goes on from the other commute, the same one twice is as good as
once, and one of a single segment is the setting of a property.
-/

namespace Groundplan

/-- Texts that an override can be made of: at least one, none of them empty or with a dot. -/
structure AreSegments (segments : List String) : Prop where
  ne_nil : segments ≠ []
  ne_empty : ∀ s ∈ segments, s ≠ ""
  dot_not_mem : ∀ s ∈ segments, '.' ∉ s.toList

/-- Segments with dots between them. -/
def dotted (segments : List String) : String := ".".intercalate segments

/-- Segments are found again between the dots. -/
theorem splitOverridePath_dotted {segments : List String} (hs : AreSegments segments) :
    splitOverridePath (.text (dotted segments)) = .ok segments := by
  have hsplit : Text.split '.' (dotted segments) = segments :=
    Text.split_intercalate hs.ne_nil hs.dot_not_mem
  have hempty : segments.any String.isEmpty = false := by
    rw [List.any_eq_false]
    exact fun s hmem he => hs.ne_empty s hmem (String.isEmpty_iff.mp he)
  have htext : (Datum.text (dotted segments)).text? = some (dotted segments) := rfl
  rw [splitOverridePath, htext]
  dsimp only
  rw [hsplit, hempty, if_neg Bool.false_ne_true]

namespace Heap

/-- What is valid stays so where heaps agree on it. -/
theorem Agree.valid {h h' : Heap} {v : Value} (ha : Agree h h' v) (hv : h.Valid v) :
    h'.Valid v := by
  rw [← acceptable_datum_iff] at hv ⊢
  rwa [ha.datum_eq]

end Heap

namespace Workspace

variable {w w' : Workspace}

/-- An override of an open block by a valid value is answered. -/
private theorem addOverride_eq (hw : Reached w) {n : NodeId} (hc : w.Changeable n)
    {segments : List String}
    (hs : AreSegments segments) {v : Value} (hv : w.heap.Valid v) :
    w.addOverride n (.text (dotted segments)) v =
      .ok ((w.withHeap (w.heap.setNested (w.propertyCell n) segments v)).markBuilding n) := by
  have hvalue (path : String) : w.checkValue path v = .ok () :=
    (checkValue_eq_ok_iff_valid (by rw [hw.limits_eq])).mpr hv
  have hpath : w.heap.datum (.text (dotted segments)) = .text (dotted segments) :=
    Heap.read_atom ..
  rw [addOverride, checkOpen, if_neg hc.isOpen, checkBlock, if_neg hc.isBlock, hpath]
  dsimp only
  rw [splitOverridePath_dotted hs, hvalue]
  rfl

/-- The override of one segment is the setting of a property, whatever the value and whether or not it
is accepted. -/
theorem addOverride_singleton (w : Workspace) (n : NodeId) {s : String}
    (hs : AreSegments [s]) (v : Value) :
    w.addOverride n (.text s) v = w.setProperty n (.text s) v := by
  have hdotted : dotted [s] = s := String.intercalate_singleton
  have hpath : w.heap.datum (.text s) = .text s := Heap.read_atom ..
  have hsplit : splitOverridePath (.text s) = .ok [s] := hdotted ▸ splitOverridePath_dotted hs
  have hkey : checkKeyDatum w.naming (w.path n) (.text s) = .ok s := by
    have hne : s.isEmpty = false := by
      simpa using hs.ne_empty s List.mem_cons_self
    simp [checkKeyDatum, checkKey, Datum.text?, hne]
  rw [addOverride, setProperty, hpath]
  dsimp only
  rw [hsplit, hkey]
  rfl

/-- An override that is answered sets the nested entry and marks the stack. -/
private theorem eq_of_addOverride_eq_ok {n : NodeId} {segments : List String}
    (hs : AreSegments segments) {v : Value}
    (h : w.addOverride n (.text (dotted segments)) v = .ok w') :
    w' = (w.withHeap (w.heap.setNested (w.propertyCell n) segments v)).markBuilding n := by
  have hpath : w.heap.datum (.text (dotted segments)) = .text (dotted segments) :=
    Heap.read_atom ..
  obtain ⟨⟨⟩, -, h⟩ := bind_eq_ok.mp h
  obtain ⟨⟨⟩, -, h⟩ := bind_eq_ok.mp h
  obtain ⟨found, hfound, h⟩ := bind_eq_ok.mp h
  obtain ⟨⟨⟩, -, h⟩ := bind_eq_ok.mp h
  rw [hpath, splitOverridePath_dotted hs] at hfound
  cases hfound
  cases h
  rfl

/-- A block that is changed can be changed further. -/
private theorem Changeable.markBuilding {n : NodeId} (hc : w.Changeable n) (h : Heap) :
    ((w.withHeap h).markBuilding n).Changeable n := by
  have hsame := sameTrees_markBuilding (w.withHeap h) n
  refine ⟨fun hlocked => hc.isOpen ?_, ?_⟩
  · obtain ⟨info, hinfo, hstate⟩ := Option.map_eq_some_iff.mp hlocked
    rw [hsame.root_eq, root_withHeap, Workspace.markBuilding, root_withHeap,
      node_modifyNode] at hinfo
    rw [state?, Option.map_eq_some_iff]
    split at hinfo
    · obtain ⟨old, hold, rfl⟩ := Option.map_eq_some_iff.mp hinfo
      refine ⟨old, hold, ?_⟩
      -- an empty stack would only move on to building
      dsimp only at hstate
      split at hstate
      · cases hstate
      · exact hstate
    · exact ⟨info, hinfo, hstate⟩
  · rw [hsame.kind_eq]
    exact hc.isBlock

/-- What an answered override leaves: a workspace that is reached, in which the block can be changed
further and its properties are in the same place, where the path leads to the value. -/
structure Amended (w w' : Workspace) (n : NodeId) (segments : List String) (v : Value) : Prop where
  reached : Reached w'
  changeable : w'.Changeable n
  properties_eq : (w'.node n).properties = (w.node n).properties
  overridden : Heap.Overridden w.heap w'.heap (w.node n).properties segments v

/-- What an override leaves of a value that does not draw on the properties of the block: it can
still be named, reads as it did, and does not draw on them. -/
structure Spared (w w' : Workspace) (n : NodeId) (u : Value) : Prop where
  inScope : u.InScope w'
  agree : Heap.Agree w.heap w'.heap u
  apart : ¬ w'.heap.DrawsOn u (w'.propertyCell n)

section Answered

variable {n : NodeId} {segments : List String} {v : Value} (hw : Reached w) (hc : w.Changeable n)
  (hs : AreSegments segments) (hv : v.InScope w)
  (h : w.addOverride n (.text (dotted segments)) v = .ok w')
include hw hc hs hv h

private theorem answered_facts : Reached w' ∧ Widens w w' ∧
    w'.heap = w.heap.setNested (w.propertyCell n) segments v ∧ w'.Changeable n ∧
      (w'.node n).properties = (w.node n).properties := by
  have hcall : (Call.addOverride n (.text (dotted segments)) v).InScope w :=
    ⟨lt_size_of_kind_ne hc.isBlock, trivial, hv⟩
  have hperform : (w.perform (.addOverride n (.text (dotted segments)) v)).workspace = w' := by
    rw [perform, h]
    rfl
  have hstep : w.Step (fun _ => True) w' := hperform ▸ step_perform hcall fun _ _ => trivial
  obtain rfl := eq_of_addOverride_eq_ok hs h
  exact ⟨hperform ▸ hw.step _ hcall, hstep.widens, (sameTrees_markBuilding ..).heap_eq,
    hc.markBuilding _, (sameTrees_markBuilding ..).properties_eq n⟩

private theorem propertyCell_eq_of_answered : w'.propertyCell n = w.propertyCell n := by
  obtain ⟨-, -, -, -, hprops⟩ := answered_facts hw hc hs hv h
  obtain ⟨c, es, hown, -⟩ := hw.stored.own n (lt_size_of_kind_ne hc.isBlock)
  rw [propertyCell, propertyCell, hprops, hown]

private theorem cells_eq_of_answered {c : CellId} (hlt : c < w.heap.cells.size)
    (hne : c ≠ w.propertyCell n) : w'.heap.cells[c]? = w.heap.cells[c]? := by
  rw [(answered_facts hw hc hs hv h).2.2.1]
  exact Heap.getElem?_setNested_of_ne segments v hlt hne

private theorem spared_of_answered {u : Value} (hu : u.InScope w)
    (hapart : ¬ w.heap.DrawsOn u (w.propertyCell n)) : Spared w w' n u := by
  obtain ⟨-, hwidens, -⟩ := answered_facts hw hc hs hv h
  have hbeside : w.heap.Beside (w.propertyCell n) u := ⟨below_of_inScope hu, hapart⟩
  have hcells := fun c hlt hne => cells_eq_of_answered hw hc hs hv h (c := c) hlt hne
  refine ⟨Value.InScope.mono hwidens hu, hbeside.agree hw.stored.tidy.closed hcells, ?_⟩
  rw [propertyCell_eq_of_answered hw hc hs hv h]
  exact hbeside.not_drawsOn hw.stored.tidy.closed hcells

variable (hclear : w.heap.Clear (w.propertyCell n))
include hclear

private theorem amended_of_answered : Amended w w' n segments v := by
  obtain ⟨hreached, -, hheap, hopen, hprops⟩ := answered_facts hw hc hs hv h
  have hn := lt_size_of_kind_ne hc.isBlock
  obtain ⟨c, es, hown, hes, -⟩ := hw.stored.own n hn
  have hcell : w.propertyCell n = c := by rw [propertyCell, hown]
  refine ⟨hreached, hopen, hprops, ?_⟩
  rw [hheap, hw.stored.properties_eq hn]
  exact Heap.overridden_setNested hw.stored.tidy.closed hclear (hcell ▸ hes) hs.ne_nil v

private theorem clear_of_answered (hapart : ¬ w.heap.DrawsOn v (w.propertyCell n)) :
    w'.heap.Clear (w'.propertyCell n) := by
  obtain ⟨-, -, hheap, -⟩ := answered_facts hw hc hs hv h
  obtain ⟨c, es, hown, hes, -⟩ := hw.stored.own n (lt_size_of_kind_ne hc.isBlock)
  have hcell : w.propertyCell n = c := by rw [propertyCell, hown]
  rw [hheap, propertyCell_eq_of_answered hw hc hs hv h]
  exact Heap.clear_setNested hw.stored.tidy.closed hclear (hcell ▸ hes) hs.ne_nil
    ⟨below_of_inScope hv, hapart⟩

/-- A value that does not draw on the properties of the block replaces what was there. -/
private theorem replaced_of_answered (hapart : ¬ w.heap.DrawsOn v (w.propertyCell n)) :
    Heap.Replaced w.heap w'.heap (w.node n).properties segments v :=
  ⟨(amended_of_answered hw hc hs hv h hclear).overridden,
    (spared_of_answered hw hc hs hv h hv hapart).agree⟩

end Answered

open Heap in
/-- An override of a block that is still open, on any path of segments and by any value that a
property may be, is answered and overrides, unless something in the properties of the block draws on
them. By values that do not draw on them either, another one on a path that diverges can be made
before or after it with the same result up to the order of keys, and the same one again changes
nothing. One of a single segment is the setting of a property. -/
theorem addOverride_overrides (hw : Reached w) {n : NodeId} (hc : w.Changeable n)
    {segments : List String} (hs : AreSegments segments) {v : Value} (hv : v.InScope w)
    (hvalid : w.heap.Valid v) :
    ∃ w', w.addOverride n (.text (dotted segments)) v = .ok w' ∧
      (w'.node n).properties = (w.node n).properties ∧
      (w.heap.Clear (w.propertyCell n) →
        Overridden w.heap w'.heap (w.node n).properties segments v ∧
        (¬ w.heap.DrawsOn v (w.propertyCell n) → Agree w.heap w'.heap v ∧
          (∀ others u, AreSegments others → Diverge segments others → u.InScope w →
            ¬ w.heap.DrawsOn u (w.propertyCell n) → w.heap.Valid u →
              ∃ w₂ w₁₂ w₂₁, w'.addOverride n (.text (dotted others)) u = .ok w₁₂ ∧
                w.addOverride n (.text (dotted others)) u = .ok w₂ ∧
                w₂.addOverride n (.text (dotted segments)) v = .ok w₂₁ ∧
                LikeAlong List.Perm w₁₂.heap w₂₁.heap (w.node n).properties) ∧
          ∃ w₂, w'.addOverride n (.text (dotted segments)) v = .ok w₂ ∧
            LikeAlong Eq w'.heap w₂.heap (w.node n).properties)) ∧
      ∀ s, segments = [s] → w.addOverride n (.text s) v = w.setProperty n (.text s) v := by
  obtain ⟨w₁, h₁⟩ : ∃ w₁, w.addOverride n (.text (dotted segments)) v = .ok w₁ :=
    ⟨_, addOverride_eq hw hc hs hvalid⟩
  refine ⟨w₁, h₁, (answered_facts hw hc hs hv h₁).2.2.2.2, fun hclear => ?_, ?_⟩
  · have hamended₁ := amended_of_answered hw hc hs hv h₁ hclear
    refine ⟨hamended₁.overridden, fun hapart => ?_⟩
    have hover₁ := replaced_of_answered hw hc hs hv h₁ hclear hapart
    have hclear₁ := clear_of_answered hw hc hs hv h₁ hclear hapart
    have hspared₁ := spared_of_answered hw hc hs hv h₁ hv hapart
    refine ⟨hover₁.steady, ?_, ?_⟩
    · intro others u hothers hdiverge hu hapart' hvalid'
      obtain ⟨w₂, h₂⟩ : ∃ w₂, w.addOverride n (.text (dotted others)) u = .ok w₂ :=
        ⟨_, addOverride_eq hw hc hothers hvalid'⟩
      have hamended₂ := amended_of_answered hw hc hothers hu h₂ hclear
      have hover₂ := replaced_of_answered hw hc hothers hu h₂ hclear hapart'
      have hclear₂ := clear_of_answered hw hc hothers hu h₂ hclear hapart'
      have hu₁ := spared_of_answered hw hc hs hv h₁ hu hapart'
      have hv₂ := spared_of_answered hw hc hothers hu h₂ hv hapart
      obtain ⟨w₁₂, h₁₂⟩ : ∃ w₁₂, w₁.addOverride n (.text (dotted others)) u = .ok w₁₂ :=
        ⟨_, addOverride_eq hamended₁.reached hamended₁.changeable hothers (hu₁.agree.valid hvalid')⟩
      obtain ⟨w₂₁, h₂₁⟩ : ∃ w₂₁, w₂.addOverride n (.text (dotted segments)) v = .ok w₂₁ :=
        ⟨_, addOverride_eq hamended₂.reached hamended₂.changeable hs (hv₂.agree.valid hvalid)⟩
      have hover₁₂ := replaced_of_answered hamended₁.reached hamended₁.changeable hothers
        hu₁.inScope h₁₂ hclear₁ hu₁.apart
      have hover₂₁ := replaced_of_answered hamended₂.reached hamended₂.changeable hs
        hv₂.inScope h₂₁ hclear₂ hv₂.apart
      rw [hamended₁.properties_eq] at hover₁₂
      rw [hamended₂.properties_eq] at hover₂₁
      exact ⟨w₂, w₁₂, w₂₁, h₁₂, h₂, h₂₁, hover₁.commute hover₁₂ hover₂ hover₂₁
        (diverge_keysOf.mpr hdiverge) hv₂.agree hu₁.agree⟩
    · obtain ⟨w₂, h₂⟩ : ∃ w₂, w₁.addOverride n (.text (dotted segments)) v = .ok w₂ :=
        ⟨_, addOverride_eq hamended₁.reached hamended₁.changeable hs (hspared₁.agree.valid hvalid)⟩
      have hover₂ := replaced_of_answered hamended₁.reached hamended₁.changeable hs
        hspared₁.inScope h₂ hclear₁ hspared₁.apart
      rw [hamended₁.properties_eq] at hover₂
      exact ⟨w₂, h₂, hover₁.again hover₂⟩
  · rintro s rfl
    exact addOverride_singleton w n hs v

open Heap Session in
/-- The owner and the team are set, in either order, twice through a mapping that stands inside itself
and is shared with another resource; the team is that mapping once more. -/
theorem addOverride_overrides_tangled :
    Reached (run {} tangledCalls) ∧ ∃ w₁ w₂ w₁₂ w₂₁,
      (run {} tangledCalls).addOverride 1 (.text "tags.self.owner") (.text "me") = .ok w₁ ∧
      Overridden (run {} tangledCalls).heap w₁.heap ((run {} tangledCalls).node 1).properties
        ["tags", "self", "owner"] (.text "me") ∧
      w₁.addOverride 1 (.text "tags.self.team") (.cell 1) = .ok w₁₂ ∧
      (run {} tangledCalls).addOverride 1 (.text "tags.self.team") (.cell 1) = .ok w₂ ∧
      w₂.addOverride 1 (.text "tags.self.owner") (.text "me") = .ok w₂₁ ∧
      LikeAlong List.Perm w₁₂.heap w₂₁.heap ((run {} tangledCalls).node 1).properties := by
  have hw : Reached (run {} tangledCalls) := Reached.start.run (by decide +kernel)
  have hvalid : (run {} tangledCalls).heap.Valid (.cell 1) := by
    have hcheck : ((run {} tangledCalls).checkValue "" (.cell 1)).isOk = true := by decide +kernel
    refine FitValue.valid ⟨"", ?_⟩
    cases hresult : (run {} tangledCalls).checkValue "" (.cell 1) with
    | ok u => rfl
    | error e =>
      rw [hresult] at hcheck
      cases hcheck
  have hopen : (run {} tangledCalls).Changeable 1 := ⟨by decide +kernel, by decide +kernel⟩
  have howner : AreSegments ["tags", "self", "owner"] := ⟨by decide, by decide, by decide⟩
  obtain ⟨w₁, h₁, -, hover, -⟩ :=
    addOverride_overrides hw hopen howner (v := .text "me") (by decide +kernel)
      (FitValue.valid ⟨"", rfl⟩)
  have hcell : (run {} tangledCalls).propertyCell 1 = 3 := by decide +kernel
  have halone : (run {} tangledCalls).heap.Solitary 3 := by decide +kernel
  have hapart {v : Value} (hne : v ≠ .cell 3) : ¬ (run {} tangledCalls).heap.DrawsOn v 3 :=
    fun hd => hne (halone.eq_of_drawsOn hd)
  rw [hcell] at hover
  obtain ⟨hoverridden, hreplaced⟩ := hover fun v hv => halone.not_drawsOn_of_mem hv
  obtain ⟨-, hcommute, -⟩ := hreplaced (hapart nofun)
  obtain ⟨w₂, w₁₂, w₂₁, h₁₂, h₂, h₂₁, halike⟩ :=
    hcommute ["tags", "self", "team"] (.cell 1) ⟨by decide, by decide, by decide⟩
      ⟨by decide, by decide⟩ (by decide +kernel) (hapart (by simp)) hvalid
  exact ⟨hw, w₁, w₂, w₁₂, w₂₁, h₁, hoverridden, h₁₂, h₂, h₂₁, halike⟩

/-- Requests that declare a resource and make the mapping that it keeps its properties in one of
them. -/
def foldedCalls : List Call :=
  [.createApp "", .createStack 0 (.text "stack"),
    .addBlock 0 .resource (.text "vpc") (.text "a") .null, .setProperty 1 (.text "self") (.cell 1)]

/-- The override of a property then shows on a path that diverges from it. -/
theorem addOverride_folded :
    Reached (run {} foldedCalls) ∧ (run {} foldedCalls).Changeable 1 ∧ AreSegments ["x"] ∧
      Heap.Diverge ["x"] ["self", "x"] ∧
      ∃ w', (run {} foldedCalls).addOverride 1 (.text "x") (.text "up") = .ok w' ∧
        w'.heap.lookup? ((run {} foldedCalls).node 1).properties (Heap.keysOf ["self", "x"]) ≠
          (run {} foldedCalls).heap.lookup? ((run {} foldedCalls).node 1).properties
            (Heap.keysOf ["self", "x"]) := by
  have hw : Reached (run {} foldedCalls) := Reached.start.run (by decide +kernel)
  have hopen : (run {} foldedCalls).Changeable 1 := ⟨by decide +kernel, by decide +kernel⟩
  have hsegments : AreSegments ["x"] := ⟨by decide, by decide, by decide⟩
  have hanswered : (run {} foldedCalls).addOverride 1 (.text (dotted ["x"])) (.text "up") = _ :=
    addOverride_eq hw hopen hsegments (FitValue.valid ⟨"", rfl⟩)
  refine ⟨hw, hopen, hsegments, ⟨by decide, by decide⟩, _,
    hanswered, fun he => ?_⟩
  exact absurd (congrArg Option.isSome he) (by decide +kernel)

end Workspace

end Groundplan
