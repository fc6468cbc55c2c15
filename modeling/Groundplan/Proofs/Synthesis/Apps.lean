import Groundplan.Proofs.Synthesis.Defects
import Groundplan.Proofs.Synthesis.Repeatability

/-!
# Synthesis of an app

The stacks of an app are synthesised one after the other, and none disturbs another. So each becomes
what it would become by itself: either all of them become documents, or synthesis stops at one that
does not.
-/

namespace Groundplan

namespace Workspace

variable {w : Workspace} {emit : Bool}

/-- Closing one stack does not disturb the tree of another. -/
theorem undisturbed_close (w : Workspace) (t s : NodeId) : Undisturbed w (w.close t) s := by
  have hsame := sameTrees_close w t
  refine ⟨⟨Nat.le_of_eq hsame.size_eq.symm, fun n _ => core_close ..⟩, hsame.walk_eq s,
    fun n _ => hsame.propertiesOf_eq n⟩

/-- The document is what the stack becomes by itself, and stands under the name of the stack. -/
def Becomes (w : Workspace) (emit : Bool) (entry : String × NodeId) (made : String × Document) :
    Prop :=
  made.1 = entry.1 ∧
    (w.synthesize (.atom (.entity (.node entry.2 true))) emit).2 = .ok made.2

/-- A document has the name of its stack. -/
theorem Becomes.stackName_eq {entry : String × NodeId} {made : String × Document}
    (h : w.Becomes emit entry made) : made.2.stackName = (w.node entry.2).id := by
  obtain ⟨placed, -, hdoc⟩ := synthesize_eq_ok h.2
  rw [hdoc]
  rfl

/-- What a stack becomes does not depend on whether another is closed. -/
theorem becomes_close_iff (hw : Reached w) {t : NodeId} (ht : (w.node t).isStack = true)
    {entry : String × NodeId} (hs : (w.node entry.2).isStack = true) {made : String × Document} :
    (w.close t).Becomes emit entry made ↔ w.Becomes emit entry made := by
  have hclosed {v : Workspace} (hv : Reached v) {s : NodeId} (hstack : (v.node s).isStack = true) :
      Reached (v.close s) :=
    .step hv (.synthesize (.atom (.entity (.node s true))) true) ⟨lt_size_of_isStack hstack, hstack⟩
  have hkeep (v : Workspace) (s n : NodeId) :
      ((v.close s).node n).isStack = (v.node n).isStack := by
    rw [← Node.isStack_core, core_close, Node.isStack_core]
  have halike := documentOf_alike (hclosed hw hs)
    (hclosed (hclosed hw ht) ((hkeep w t entry.2).trans hs))
    (undisturbed_close w t entry.2).close ((hkeep w entry.2 entry.2).trans hs)
    (relates_samePlace _ _ entry.2) emit
  have hok : ((w.close t).close entry.2).documentOf entry.2 emit = .ok made.2 ↔
      (w.close entry.2).documentOf entry.2 emit = .ok made.2 := by
    generalize (w.close entry.2).documentOf entry.2 emit = x at halike
    generalize ((w.close t).close entry.2).documentOf entry.2 emit = y at halike
    cases halike with
    | ok doc => rfl
    | error => simp
  exact and_congr_right' (mapError_eq_ok.trans (hok.trans mapError_eq_ok.symm))

/-- A stack that becomes no document has a defect: its synthesis does not break down. -/
theorem breakdown?_of_synthesize_eq_error (hw : Reached w) {s : NodeId} {fault : Fault}
    (h : (w.synthesize (.atom (.entity (.node s true))) emit).2 = .error fault) :
    fault.breakdown? = none := by
  obtain ⟨f, d, rfl, hf, -⟩ := exists_defect_of_synthesize_eq_error hw h
  cases f with
  | breakdown => cases hf
  | _ => rfl

/-- Either all stacks become documents, in their order, or synthesis stops at one that does not. -/
theorem synthesizeStacks_cases (hw : Reached w) (emit : Bool) {registry : List (String × NodeId)}
    (hstacks : ∀ entry ∈ registry, (w.node entry.2).isStack = true) :
    (∃ docs, (w.synthesizeStacks emit registry).2 = (docs, none) ∧
        List.Forall₂ (w.Becomes emit) registry docs) ∨
      ∃ docs fault, (w.synthesizeStacks emit registry).2 = (docs, some fault) ∧
        fault.breakdown? = none ∧ ∃ entry ∈ registry, ∀ made, ¬ w.Becomes emit entry made := by
  induction registry generalizing w with
  | nil => exact .inl ⟨[], rfl, .nil⟩
  | cons entry rest ih =>
    obtain ⟨hstack, hrest⟩ := List.forall_mem_cons.mp hstacks
    obtain ⟨name, stack⟩ := entry
    have hclosed : Reached (w.close stack) :=
      .step hw (.synthesize (.atom (.entity (.node stack true))) true)
        ⟨lt_size_of_isStack hstack, hstack⟩
    have hiff {entry : String × NodeId} (he : entry ∈ rest) (made : String × Document) :
        (w.close stack).Becomes emit entry made ↔ w.Becomes emit entry made :=
      becomes_close_iff hw hstack (hrest entry he)
    have hsplit : w.synthesize (.atom (.entity (.node stack true))) emit =
        (w.close stack, (w.synthesize (.atom (.entity (.node stack true))) emit).2) := rfl
    unfold synthesizeStacks
    rw [hsplit]
    cases hmade : (w.synthesize (.atom (.entity (.node stack true))) emit).2 with
    | error fault =>
      refine .inr ⟨[], fault, rfl, breakdown?_of_synthesize_eq_error hw hmade, _,
        List.mem_cons_self, fun made h => ?_⟩
      cases hmade.symm.trans h.2
    | ok doc =>
      have hstays : ∀ entry ∈ rest, ((w.close stack).node entry.2).isStack = true := by
        intro entry he
        rw [← Node.isStack_core, core_close, Node.isStack_core, hrest entry he]
      rcases ih hclosed hstays with
        ⟨docs, hdocs, hall⟩ | ⟨docs, fault, hdocs, hfault, entry, he, hnone⟩
      · refine .inl ⟨(name, doc) :: docs, ?_, .cons ⟨rfl, hmade⟩ ?_⟩
        · simp only [hdocs]
        · have hmem := (List.forall₂_and_left rest docs).mpr ⟨fun _ he => he, hall⟩
          exact hmem.imp fun entry made h => (hiff h.1 made).mp h.2
      · refine .inr ⟨(name, doc) :: docs, fault, ?_, hfault, entry, List.mem_cons_of_mem _ he, ?_⟩
        · simp only [hdocs]
        · exact fun made h => hnone made ((hiff he made).mpr h)

/-- What an app registers is a stack. -/
theorem Reached.isStack_of_mem_registry (hw : Reached w) {a : AppId} {entry : String × NodeId}
    (he : entry ∈ (w.app a).registry) : (w.node entry.2).isStack = true := by
  have happ := (hw.registered.mem_registry_iff.mp he).1
  rw [Node.isStack]
  rw [Node.app?] at happ
  obtain ⟨info, hinfo, -⟩ := Option.bind_eq_some_iff.mp happ
  rw [hinfo]
  rfl

/-- A stack is registered under its name, which is an identifier. -/
theorem Reached.id_eq_of_mem_registry (hw : Reached w) {a : AppId} {entry : String × NodeId}
    (he : entry ∈ (w.app a).registry) : (w.node entry.2).id = entry.1 ∧ IsIdentifier entry.1 := by
  have hid := (hw.registered.mem_registry_iff.mp he).2
  have hlt := lt_size_of_isStack (hw.isStack_of_mem_registry he)
  exact ⟨hid, hid ▸ hw.trees.id_isIdentifier _ hlt⟩

/-- An app is answered for with the documents of all its stacks, or refused for one that becomes
none. -/
theorem Reached.synthesizeApp_cases (hw : Reached w) (a : AppId) (emit : Bool) :
    (∃ docs, (w.perform (.synthesizeApp a emit)).reply = .ok (.documents docs) ∧
        List.Forall₂ (w.Becomes emit) (w.app a).registry docs) ∨
      ∃ fault, (w.perform (.synthesizeApp a emit)).reply = .error fault ∧
        fault.breakdown? = none ∧ ∃ entry ∈ (w.app a).registry, ∀ made, ¬ w.Becomes emit entry made := by
  have hstacks : ∀ entry ∈ (w.app a).registry, (w.node entry.2).isStack = true :=
    fun _ he => hw.isStack_of_mem_registry he
  have hcases := synthesizeStacks_cases hw emit hstacks
  simp only [perform, synthesizeApp]
  generalize w.synthesizeStacks emit (w.app a).registry = made at hcases
  obtain ⟨after, result⟩ := made
  rcases hcases with ⟨docs, rfl, hall⟩ | ⟨docs, fault, rfl, hnone⟩
  · exact .inl ⟨docs, rfl, hall⟩
  · exact .inr ⟨fault, rfl, hnone⟩

end Workspace

end Groundplan
