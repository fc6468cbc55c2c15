import Groundplan.Proofs.Workspace.Locked

/-!
# The lifecycle of stacks

Where a stack is in its lifecycle can be told from what became of it: it is closed from the first
attempt to make a document of it on, whether or not that succeeds; before, it is building as soon as
it has a child, and empty until then. So no request leads it back. Once it is closed, what is asked
in its tree is refused, and the tree stays as it is.
-/

namespace Groundplan

/-- How far a lifecycle has come. -/
def StackState.rank : StackState → Nat
  | .empty => 0
  | .building => 1
  | .synthesized => 2

namespace Workspace

variable {w w' : Workspace}

/-- The stacks that requests try to make documents of, each in the workspace that it is asked of. -/
def attempted (w : Workspace) : List Call → List NodeId
  | [] => []
  | call :: calls => call.attempts w ++ (w.perform call).workspace.attempted calls

/-- The state of a stack that was tried or not, and has these children. -/
def stateOf (tried : Bool) (children : List NodeId) : StackState :=
  if tried then .synthesized else if children.isEmpty then .empty else .building

theorem stateOf_eq_empty_iff {tried : Bool} {l : List NodeId} :
    stateOf tried l = .empty ↔ l = [] ∧ tried = false := by
  cases tried <;> cases l <;> simp [stateOf]

theorem stateOf_eq_building_iff {tried : Bool} {l : List NodeId} :
    stateOf tried l = .building ↔ l ≠ [] ∧ tried = false := by
  cases tried <;> cases l <;> simp [stateOf]

theorem stateOf_eq_synthesized_iff {tried : Bool} {l : List NodeId} :
    stateOf tried l = .synthesized ↔ tried = true := by
  cases tried <;> cases l <;> simp [stateOf]

/-- The stacks that were tried are there, and each stack is in the state that it should be in. -/
structure Staged (w : Workspace) (tried : List NodeId) : Prop where
  lt_size : ∀ s ∈ tried, s < w.nodes.size
  state_eq : ∀ s, ∀ info ∈ (w.node s).stack,
    info.state = stateOf (s ∈ tried) (w.node s).children

section Closing

private theorem stack_close (w : Workspace) (s n : NodeId) :
    ((w.close s).node n).stack =
      if n = s ∧ s < w.nodes.size then
        (w.node n).stack.map fun info => { info with state := .synthesized }
      else (w.node n).stack := by
  rw [close, node_modifyNode]
  split <;> rfl

/-- Closing stacks that are there closes them, and no others. -/
private theorem state_foldl_close {locked : List NodeId} (hlt : ∀ s ∈ locked, s < w.nodes.size)
    {n : NodeId} {info : StackInfo} (h : ((locked.foldl close w).node n).stack = some info) :
    ∃ old ∈ (w.node n).stack, info.state = if n ∈ locked then .synthesized else old.state := by
  induction locked generalizing w with
  | nil => exact ⟨info, h, by simp⟩
  | cons s locked ih =>
    obtain ⟨hs, hrest⟩ := List.forall_mem_cons.mp hlt
    have hsize : (w.close s).nodes.size = w.nodes.size := (sameTrees_close w s).size_eq
    obtain ⟨mid, hmid, hinfo⟩ := ih (by rwa [hsize]) h
    rw [stack_close] at hmid
    by_cases hn : n = s
    · rw [if_pos ⟨hn, hs⟩] at hmid
      obtain ⟨old, hold, rfl⟩ := Option.map_eq_some_iff.mp hmid
      exact ⟨old, hold, by rw [hinfo]; simp [hn]⟩
    · rw [if_neg fun h => hn h.1] at hmid
      exact ⟨mid, hmid, by rw [hinfo]; simp [hn]⟩

/-- Only stacks that are there are tried. -/
private theorem lt_size_of_mem_attempts (hw : Reached w) {call : Call} (hc : call.InScope w)
    {s : NodeId} (hs : s ∈ call.attempts w) : s < w.nodes.size := by
  cases call with
  | synthesize target emit =>
    simp only [Call.attempts] at hs
    split at hs
    · obtain rfl := List.mem_singleton.mp hs
      exact hc.1
    · cases hs
  | synthesizeApp app emit =>
    obtain ⟨⟨name, t⟩, ht, rfl⟩ := List.mem_map.mp hs
    apply lt_size_of_isStack
    have happ := (hw.registered.mem_registry_iff.mp (List.mem_of_mem_take ht)).1
    rw [Node.app?] at happ
    obtain ⟨info, hinfo, -⟩ := Option.bind_eq_some_iff.mp happ
    rw [Node.isStack, hinfo]
    rfl
  | _ => cases hs

private theorem Staged.closing {tried : List NodeId} (hs : w.Staged tried) {locked : List NodeId}
    (hlt : ∀ s ∈ locked, s < w.nodes.size) :
    (locked.foldl close w).Staged (tried ++ locked) where
  lt_size s hmem := by
    rw [size_foldl_close]
    exact (List.mem_append.mp hmem).elim (hs.lt_size s) (hlt s)
  state_eq s info hinfo := by
    obtain ⟨old, hold, hstate⟩ := state_foldl_close hlt hinfo
    rw [hstate, (sameTrees_foldl_close locked w).children_eq, hs.state_eq s old hold]
    by_cases hl : s ∈ locked <;> simp [stateOf, hl]

end Closing

section Building

/-- Which children there are does not matter, only whether there are any. -/
private theorem stateOf_of_ne_nil (tried : Bool) {l l' : List NodeId} (hl : l ≠ []) (hl' : l' ≠ []) :
    stateOf tried l = stateOf tried l' := by
  simp [stateOf, List.isEmpty_iff, hl, hl']

/-- A stack with a child that was not tried is building once it was moved on, wherever it was. -/
private theorem staged_markBuilding {tried : List NodeId} {n : NodeId}
    (hlt : ∀ s ∈ tried, s < w.nodes.size)
    (hother : ∀ m, m ≠ w.root n → ∀ info ∈ (w.node m).stack,
      info.state = stateOf (m ∈ tried) (w.node m).children)
    (hroot : (w.node (w.root n)).children ≠ [])
    (hstate : ∀ info ∈ (w.node (w.root n)).stack, ∃ children,
      info.state = stateOf (w.root n ∈ tried) children) :
    (w.markBuilding n).Staged tried where
  lt_size s hs := by
    rw [size_markBuilding]
    exact hlt s hs
  state_eq m info hinfo := by
    rw [(sameTrees_markBuilding w n).children_eq]
    rw [markBuilding, node_modifyNode] at hinfo
    by_cases hm : m = w.root n
    · subst hm
      have hlt : w.root n < w.nodes.size := lt_size_of_node_ne fun h => hroot (by rw [h])
      rw [if_pos ⟨rfl, hlt⟩] at hinfo
      obtain ⟨old, hold, rfl⟩ := Option.map_eq_some_iff.mp hinfo
      obtain ⟨children, hold⟩ := hstate old hold
      dsimp only
      rw [hold]
      by_cases ht : w.root n ∈ tried
      · simp [stateOf, ht]
      · cases children <;> simp [stateOf, ht, hroot]
    · rw [if_neg fun h => hm h.1] at hinfo
      exact hother m hm info hinfo

/-- A stack moves on to building with the first node below it. -/
private theorem Staged.withChild {tried : List NodeId} (hs : w.Staged tried) (hw : Reached w)
    {parent : NodeId} {n : Node} {es : Entries Value} (hw' : (w.withChild parent n es).Forest)
    (hgrows : Grows w (w.withChild parent n es)) (hp : parent < w.nodes.size)
    (hn : n.stack = none) : (w.withChild parent n es).Staged tried := by
  have hforest := hw.forest
  have hroot := (sameTrees_withChild w parent n es).root_eq parent
  rw [hforest.root_eq_of_grows hgrows hw' hp] at hroot
  have hlt : w.root parent < w.nodes.size :=
    hforest.lt_size_of_above hp (hforest.above_root parent)
  have hsize : ((w.addOwning n es).1.attach parent w.nodes.size).nodes.size = w.nodes.size + 1 := by
    simp [addOwning, addNode, withHeap, attach]
  rw [Workspace.withChild]
  apply staged_markBuilding
  · intro s hmem
    rw [hsize]
    exact Nat.lt_succ_of_lt (hs.lt_size s hmem)
  · intro m hm info hinfo
    rw [← hroot] at hm
    rw [node_attach_addOwning hp] at hinfo ⊢
    split at hinfo
    · rw [hn] at hinfo
      cases hinfo
    · next hne =>
      by_cases hmp : m = parent
      · -- a parent that is a stack is its own root
        rw [if_pos hmp] at hinfo
        have hstack : (w.node m).isStack = true := by
          rw [Node.isStack, Option.mem_def.mp hinfo]
          rfl
        rw [← hmp, hw.root_eq_of_isStack hstack] at hm
        exact absurd rfl hm
      · rw [if_neg hmp] at hinfo
        rw [if_neg hne, if_neg hmp]
        exact hs.state_eq m info hinfo
  · rw [← hroot, node_attach_addOwning hp, if_neg (Nat.ne_of_lt hlt)]
    split
    · simp
    · next hne => exact hforest.children_root_ne_nil hne
  · intro info hinfo
    rw [← hroot, node_attach_addOwning hp, if_neg (Nat.ne_of_lt hlt)] at hinfo
    rw [← hroot]
    refine ⟨_, hs.state_eq _ info ?_⟩
    split at hinfo <;> exact hinfo

/-- A block that is changed has a stack above it that has moved on already. -/
private theorem Staged.markBuilding_withHeap {tried : List NodeId} (hs : w.Staged tried)
    (hw : Reached w) {n : NodeId} (hn : n < w.nodes.size) (hblock : (w.node n).kind ≠ .group)
    (h : Heap) : ((w.withHeap h).markBuilding n).Staged tried := by
  apply staged_markBuilding
  · exact hs.lt_size
  · exact fun m _ => hs.state_eq m
  · rw [root_withHeap]
    apply hw.forest.children_root_ne_nil
    -- a stack is no block
    intro hroot
    have hnone := hw.forest.parent_root n
    rw [hroot] at hnone
    have hdeclared := hw.wellDeclared hn
    rw [← Node.kind_core] at hblock
    exact hblock (hdeclared.kind_eq (hdeclared.parent_eq_none_iff.mp hnone))
  · exact fun info hinfo => ⟨_, hs.state_eq _ info hinfo⟩

private theorem Staged.withStack {tried : List NodeId} (hs : w.Staged tried) (a : AppId)
    (name : String) : (w.withStack a name).Staged tried where
  lt_size s hmem := by
    rw [size_withStack]
    exact Nat.lt_succ_of_lt (hs.lt_size s hmem)
  state_eq s info hinfo := by
    rw [node_withStack] at hinfo ⊢
    split at hinfo
    · next hs' =>
      cases hinfo
      have hnew : s ∉ tried := fun hmem => Nat.ne_of_lt (hs.lt_size s hmem) hs'
      simp [hs', stateOf, hs' ▸ hnew]
    · next hs' =>
      rw [if_neg hs']
      exact hs.state_eq s info hinfo

end Building

/-- Each request leaves stacks in the state that they should be in. -/
private theorem staged_perform (hw : Reached w) {tried : List NodeId} (hs : w.Staged tried)
    {call : Call} (hc : call.InScope w) :
    (w.perform call).workspace.Staged (tried ++ call.attempts w) := by
  have hforest : (w.perform call).workspace.Forest := (Reached.step hw call hc).forest
  have hgrows := grows_perform hc
  have heffect := effect_perform w call
  generalize (w.perform call).workspace = w' at heffect hforest hgrows
  have hsame (hs' : w'.Staged tried) (hnone : call.attempts w = []) :
      w'.Staged (tried ++ call.attempts w) := by rwa [hnone, List.append_nil]
  cases heffect with
  | closing => exact hs.closing fun s hmem => lt_size_of_mem_attempts hw hc hmem
  | createApp => exact hsame ⟨hs.lt_size, hs.state_eq⟩ rfl
  | createStack a => exact hsame (hs.withStack a _) rfl
  | addConstruct => exact hsame (hs.withChild hw hforest hgrows hc.1 rfl) rfl
  | addBlock => exact hsame (hs.withChild hw hforest hgrows hc.1 rfl) rfl
  | addOutput => exact hsame (hs.withChild hw hforest hgrows hc.1 rfl) rfl
  | setProperty hn => exact hsame (hs.markBuilding_withHeap hw hc.1 hn.isBlock _) rfl
  | addOverride hn => exact hsame (hs.markBuilding_withHeap hw hc.1 hn.isBlock _) rfl
  | keep => exact hsame ⟨hs.lt_size, hs.state_eq⟩ rfl
  | push => exact hsame ⟨hs.lt_size, hs.state_eq⟩ rfl
  | put => exact hsame ⟨hs.lt_size, hs.state_eq⟩ rfl

/-- Whatever is asked, stacks are in the state that they should be in. -/
theorem Staged.run {tried : List NodeId} (hs : w.Staged tried) (hw : Reached w)
    {calls : List Call} (hc : Call.AllInScope w calls) :
    (w.run calls).Staged (tried ++ w.attempted calls) := by
  induction calls generalizing w tried with
  | nil => simpa [Workspace.run, attempted] using hs
  | cons call calls ih =>
    rw [attempted, ← List.append_assoc]
    exact ih (staged_perform hw hs hc.1) (.step hw call hc.1) hc.2

/-- Where a stack is in its lifecycle. -/
theorem Staged.state?_eq {tried : List NodeId} (hs : w.Staged tried) (hw : Reached w) {s : NodeId}
    (hstack : (w.node s).isStack = true) :
    w.state? s = some (stateOf (s ∈ tried) (w.node s).children) := by
  obtain ⟨info, hinfo⟩ := Option.isSome_iff_exists.mp hstack
  rw [state?, hw.root_eq_of_isStack hstack, hinfo, Option.map_some, hs.state_eq s info hinfo]

/-- A child is never lost. -/
private theorem children_ne_nil_of_grows (hw : w.Forest) (hw' : w'.Forest) (h : Grows w w')
    {n : NodeId} (hn : (w.node n).children ≠ []) : (w'.node n).children ≠ [] := by
  obtain ⟨c, hc⟩ := List.exists_mem_of_ne_nil _ hn
  have hparent := hw.mem_children.mp hc
  have hmem : c ∈ (w'.node n).children := by
    rw [hw'.mem_children, h.parent_eq (lt_size_of_parent hparent), hparent]
  exact List.ne_nil_of_mem hmem

private theorem rank_stateOf_le {tried tried' : Bool} {l l' : List NodeId}
    (ht : tried = true → tried' = true) (hl : l ≠ [] → l' ≠ []) :
    (stateOf tried l).rank ≤ (stateOf tried' l').rank := by
  cases tried with
  | true =>
    rw [ht rfl]
    exact Nat.le_refl _
  | false =>
    cases tried' with
    | true => cases l <;> simp [stateOf, StackState.rank]
    | false =>
      cases l with
      | nil => simp [stateOf, StackState.rank]
      | cons n l =>
        have hn : n :: l ≠ [] := List.cons_ne_nil n l
        exact Nat.le_of_eq (by rw [stateOf_of_ne_nil false hn (hl hn)])

/-- The lifecycle of a stack, some stacks having been tried. -/
structure Lifecycle (w : Workspace) (tried : List NodeId) (s : NodeId) : Prop where
  /-- It is empty while it has no child and was not tried. -/
  empty_iff : w.state? s = some .empty ↔ (w.node s).children = [] ∧ s ∉ tried
  /-- It is building while it has a child and was not tried. -/
  building_iff : w.state? s = some .building ↔ (w.node s).children ≠ [] ∧ s ∉ tried
  /-- It is closed from the first attempt on. -/
  synthesized_iff : w.state? s = some .synthesized ↔ s ∈ tried
  /-- It never moves back. -/
  rank_le : ∀ calls, Call.AllInScope w calls → ∀ before ∈ w.state? s,
    ∃ after ∈ (w.run calls).state? s, before.rank ≤ after.rank
  /-- Once it is closed, what is asked in its tree is refused and leaves all as it was; and if what is
  handed over is valid, because the stack is closed. -/
  refused : s ∈ tried → ∀ n ∈ w.walk s, ∀ call : Call, call.target? = some n →
    ∃ fault, w.perform call = w.refused fault ∧ (call.Valid w → fault = .locked (w.node s).id)
  /-- Once it is closed, its tree stays as it is. -/
  frozen : s ∈ tried → ∀ calls, Call.AllInScope w calls → Frozen w (w.run calls) s

private theorem Staged.lifecycle {tried : List NodeId} (hs : w.Staged tried) (hw : Reached w)
    {s : NodeId} (hstack : (w.node s).isStack = true) : w.Lifecycle tried s := by
  have hstate := hs.state?_eq hw hstack
  have hroot := hw.root_eq_of_isStack hstack
  have hclosed : w.state? s = some .synthesized ↔ s ∈ tried := by
    rw [hstate, Option.some_inj, stateOf_eq_synthesized_iff, decide_eq_true_iff]
  refine ⟨?_, ?_, hclosed, ?_, ?_, fun ht calls hc => frozen_run hw hstack (hclosed.mpr ht) hc⟩
  · rw [hstate, Option.some_inj, stateOf_eq_empty_iff, decide_eq_false_iff_not]
  · rw [hstate, Option.some_inj, stateOf_eq_building_iff, decide_eq_false_iff_not]
  · intro calls hc before hbefore
    have hw' := hw.run hc
    have hgrows := grows_run hc
    have hstack' : ((w.run calls).node s).isStack = true := by
      rw [hgrows.isStack_eq (lt_size_of_isStack hstack), hstack]
    refine ⟨_, (hs.run hw hc).state?_eq hw' hstack', ?_⟩
    rw [hstate] at hbefore
    obtain rfl := Option.some.inj hbefore
    refine rank_stateOf_le (fun ht => ?_) (children_ne_nil_of_grows hw.forest hw'.forest hgrows)
    simp only [decide_eq_true_eq] at ht ⊢
    exact List.mem_append_left _ ht
  · intro ht n hn call hcall
    have hnroot := ((hw.trees.mem_walk_iff hstack).mp hn).2
    have hlocked : w.state? n = some .synthesized := by
      rw [state?, hnroot, ← hroot]
      exact hclosed.mpr ht
    have hroom : w.limits.checking = none := by rw [hw.limits_eq]
    have href := perform_of_synthesized hlocked hroom hcall
    rwa [hnroot] at href

/-- Whatever was asked, a stack is in the state that its children and the attempts at documents
call for, does not go back, and is closed to all requests from the first attempt on. -/
theorem run_lifecycle {calls : List Call} (hc : Call.AllInScope {} calls) {s : NodeId}
    (hs : ((run {} calls).node s).isStack = true) :
    (run {} calls).Lifecycle (attempted {} calls) s := by
  have hstart : Staged {} [] := by
    refine ⟨by simp, fun s info hinfo => ?_⟩
    rw [node_start] at hinfo
    cases hinfo
  have hstaged := hstart.run .start hc
  rw [List.nil_append] at hstaged
  exact hstaged.lifecycle (Reached.start.run hc) hs

/-- A stack of which a document was made is closed. -/
theorem run_lifecycle_refused : (run {} refusedCalls).Lifecycle (attempted {} refusedCalls) 0 ∧
    0 ∈ attempted {} refusedCalls :=
  ⟨run_lifecycle (by decide +kernel) (by decide +kernel), by decide +kernel⟩

end Workspace

end Groundplan
