import Groundplan.Proofs.Heap.Agreement
import Groundplan.Proofs.Workspace.Widening
import Groundplan.Trial

/-!
# What a request leaves alone

A request that is not itself the writing of a caller's container changes at most the mapping that one
node keeps its properties in. All other containers that were there stay as they are, entry by entry,
however they are shared and even where they stand inside themselves: what a caller holds reads as
before, and so do the properties of all other nodes, unless they draw on that very mapping. They do so
only if it was handed on as a value. A change that is answered shows where it was made.
-/

namespace Groundplan

/-- The node whose properties a request sets. -/
def Call.changed? : Call → Option NodeId
  | .setProperty node _ _ => some node
  | .addOverride node _ _ => some node
  | _ => none

/-- The node whose properties a request sets is there. -/
theorem Call.InScope.lt_of_mem_changed? {w : Workspace} {call : Call} (hc : call.InScope w)
    {n : NodeId} (hn : n ∈ call.changed?) : n < w.nodes.size := by
  cases call with
  | setProperty | addOverride =>
    cases hn
    exact hc.1
  | _ => cases hn

namespace Heap

variable {h : Heap}

/-- The container stands in no container and no view shows it. -/
structure Solitary (h : Heap) (c : CellId) : Prop where
  not_held : ∀ id, .cell c ∉ h.parts id
  not_shown : ∀ id : CellId, h.cells[id]? ≠ some (.view c)

/-- What draws on a container that stands by itself is that container. -/
theorem Solitary.eq_of_drawsOn {c : CellId} (hs : h.Solitary c) {v : Value} (hd : h.DrawsOn v c) :
    v = .cell c := by
  obtain ⟨id, hr, hb⟩ := hd
  have hid : id = c := by
    clear hr
    induction hb with
    | refl => rfl
    | view hview _ _ ih =>
      subst ih
      exact absurd hview (hs.not_shown _)
  subst hid
  generalize he : Value.cell id = u at hr
  induction hr with
  | refl => rfl
  | step hv _ ih =>
    subst he
    cases ih rfl
    exact absurd hv (hs.not_held _)

/-- A container that stands by itself holds nothing that draws on it. -/
theorem Solitary.not_drawsOn_of_mem {c : CellId} (hs : h.Solitary c) {id : CellId} {v : Value}
    (hv : v ∈ h.parts id) : ¬ h.DrawsOn v c := fun hd =>
  hs.not_held id (hs.eq_of_drawsOn hd ▸ hv)

instance (v : Value) (c : CellId) : Decidable (v = .cell c) :=
  match v with
  | .cell d => decidable_of_iff (d = c) ⟨congrArg Value.cell, Value.cell.inj⟩
  | .atom _ => isFalse nofun

instance (cell : Option Cell) (c : CellId) : Decidable (cell = some (.view c)) :=
  match cell with
  | some (.view d) =>
    decidable_of_iff (d = c) ⟨congrArg (some ∘ Cell.view), fun he => Cell.view.inj (Option.some.inj he)⟩
  | none => isFalse nofun
  | some (.list _) => isFalse nofun
  | some (.tuple _) => isFalse nofun
  | some (.mapping _) => isFalse nofun

private theorem solitary_iff {c : CellId} : h.Solitary c ↔ ∀ id < h.cells.size,
    (∀ v ∈ h.parts id, v ≠ .cell c) ∧ h.cells[id]? ≠ some (.view c) := by
  constructor
  · exact fun hs id _ => ⟨fun v hv he => hs.not_held id (he ▸ hv), hs.not_shown id⟩
  · intro hs
    refine ⟨fun id hheld => ?_, fun id hshown => ?_⟩
    · by_cases hlt : id < h.cells.size
      · exact (hs id hlt).1 _ hheld rfl
      · rw [parts, Array.getElem?_eq_none (Nat.le_of_not_lt hlt)] at hheld
        cases hheld
    · exact (hs id (lt_size_of_getElem? hshown)).2 hshown

/-- Whether a container stands by itself is seen in those that are there. -/
instance (c : CellId) : Decidable (h.Solitary c) := decidable_of_iff' _ solitary_iff

/-- What a path of texts leads to from a mapping down. -/
def valueAlong? (h : Heap) (id : CellId) : List String → Option Value
  | [] => none
  | [last] => h.valueAt? id (.text last)
  | segment :: next :: rest =>
      match h.valueAt? id (.text segment) with
      | some (.cell c) => h.valueAlong? c (next :: rest)
      | _ => none

private theorem valueAt?_setEntry_self {id : CellId} {es : Entries Value}
    (hid : h.cells[id]? = some (.mapping es)) (s : String) (v : Value) :
    (h.setEntry id (.text s) v).valueAt? id (.text s) = some v := by
  rw [valueAt?, getElem?_setEntry_self h id _ v hid]
  exact Entries.get?_set_text es s v

/-- A nested entry that was set is found. -/
theorem valueAlong?_setNested {id : CellId} {es : Entries Value}
    (hid : h.cells[id]? = some (.mapping es)) {segments : List String} (hne : segments ≠ [])
    (v : Value) : (h.setNested id segments v).valueAlong? id segments = some v := by
  induction segments generalizing h id es with
  | nil => exact absurd rfl hne
  | cons segment rest ih =>
    cases rest with
    | nil => exact valueAt?_setEntry_self hid segment v
    | cons next rest =>
      rw [setNested_cons_cons]
      have hlt : id < h.cells.size := lt_size_of_getElem? hid
      have hlinked : ((h.alloc (.mapping (h.foundAt id segment))).1.setEntry id (.text segment)
          (.cell h.cells.size)).valueAt? id (.text segment) = some (.cell h.cells.size) := by
        have hold : (h.alloc (.mapping (h.foundAt id segment))).1.cells[id]? =
            some (.mapping es) := by rwa [getElem?_alloc_of_lt h _ hlt]
        exact valueAt?_setEntry_self hold segment _
      have hcopy : ((h.alloc (.mapping (h.foundAt id segment))).1.setEntry id (.text segment)
          (.cell h.cells.size)).cells[h.cells.size]? =
            some (.mapping (h.foundAt id segment)) := by
        rw [getElem?_setEntry_of_ne _ _ _ _ (Nat.ne_of_gt hlt), getElem?_alloc_size]
      generalize (h.alloc (.mapping (h.foundAt id segment))).1.setEntry id (.text segment)
        (.cell h.cells.size) = linked at hlinked hcopy
      -- what is written in the copy leaves the link to it
      have hlink : (linked.setNested h.cells.size (next :: rest) v).valueAt? id (.text segment) =
          some (.cell h.cells.size) := by
        rw [← hlinked, valueAt?, valueAt?, getElem?_setNested_of_ne _ _ _ (Nat.ne_of_lt hlt)]
        exact Nat.lt_trans hlt (lt_size_of_getElem? hcopy)
      rw [valueAlong?, hlink]
      exact ih hcopy (by simp)

end Heap

namespace Workspace

variable {w w' : Workspace}

/-- A container is written only if it is that of the node whose properties are set. -/
private theorem getElem?_perform {call : Call} (hw : call.written? = none) {c : CellId}
    (hc : c < w.heap.cells.size) (hne : ∀ n ∈ call.changed?, c ≠ w.propertyCell n) :
    (w.perform call).workspace.heap.cells[c]? = w.heap.cells[c]? := by
  have heffect := effect_perform w call
  generalize (w.perform call).workspace = w' at heffect
  cases heffect with
  | closing => rw [(sameTrees_foldl_close _ w).heap_eq]
  | createApp => rfl
  | createStack a => rw [heap_withStack, Heap.getElem?_alloc_of_lt _ _ hc]
  | addConstruct => rw [heap_withChild, Heap.getElem?_alloc_of_lt _ _ hc]
  | addBlock => rw [heap_withChild, Heap.getElem?_alloc_of_lt _ _ hc]
  | addOutput => rw [heap_withChild, Heap.getElem?_alloc_of_lt _ _ hc]
  | @setProperty n =>
    rw [(sameTrees_markBuilding ..).heap_eq]
    exact Heap.getElem?_setEntry_of_ne _ _ _ _ (hne n rfl)
  | @addOverride n =>
    rw [(sameTrees_markBuilding ..).heap_eq]
    exact Heap.getElem?_setNested_of_ne _ _ hc (hne n rfl)
  | keep cell => exact Heap.getElem?_alloc_of_lt _ _ hc
  | push => cases hw
  | put => cases hw

/-- All that was there is as it was, but for the mapping of the node that is changed, if one is, and
for what draws on it. -/
structure Framed (w w' : Workspace) (changed : Option NodeId) : Prop where
  cell_eq : ∀ c < w.heap.cells.size, (∀ n ∈ changed, c ≠ w.propertyCell n) →
    w'.heap.cells[c]? = w.heap.cells[c]?
  entries_eq : ∀ c < w.heap.cells.size, (∀ n ∈ changed, ¬ w.heap.Backs (w.propertyCell n) c) →
    w'.heap.entries? c = w.heap.entries? c
  datum_eq : ∀ v, v.InScope w → (∀ n ∈ changed, ¬ w.heap.DrawsOn v (w.propertyCell n)) →
    w'.heap.datum v = w.heap.datum v
  properties_eq : ∀ n < w.nodes.size, (w'.node n).properties = (w.node n).properties
  propertiesOf_eq : ∀ m < w.nodes.size,
    (∀ n ∈ changed, ¬ w.heap.DrawsOn (w.node m).properties (w.propertyCell n)) →
      w'.propertiesOf m = w.propertiesOf m

/-- Where only lifecycles differ, everything is as it was. -/
theorem Framed.of_sameTrees (h : SameTrees w w') : Framed w w' none where
  cell_eq c _ _ := by rw [h.heap_eq]
  entries_eq c _ _ := by rw [h.heap_eq]
  datum_eq v _ _ := by rw [h.heap_eq]
  properties_eq n _ := h.properties_eq n
  propertiesOf_eq n _ _ := h.propertiesOf_eq n

section Apart

variable {call : Call} (hw : w.Stored) (hwritten : call.written? = none) {v : Value}
  (hv : v.Below w.heap.cells.size)
  (hapart : ∀ n ∈ call.changed?, ¬ w.heap.DrawsOn v (w.propertyCell n))
include hw hwritten hv hapart

/-- A request leaves alone what does not draw on the mapping that it writes. -/
theorem agree_perform : w.heap.Agree (w.perform call).workspace.heap v := by
  refine Heap.agree_of_apart (P := fun c => ∃ n ∈ call.changed?, c = w.propertyCell n)
    hw.tidy.closed (fun c hc hnot => ?_) hv ?_
  · exact getElem?_perform hwritten hc fun n hn he => hnot ⟨n, hn, he⟩
  · rintro c ⟨n, hn, rfl⟩
    exact hapart n hn

/-- What does not draw on the mapping that a request writes draws on nothing new after it. -/
theorem drawsOn_of_perform {c : CellId} (hd : (w.perform call).workspace.heap.DrawsOn v c) :
    w.heap.DrawsOn v c := by
  refine Heap.drawsOn_of_apart (P := fun c => ∃ n ∈ call.changed?, c = w.propertyCell n)
    hw.tidy.closed (fun c hc hnot => ?_) hv ?_ hd
  · exact getElem?_perform hwritten hc fun n hn he => hnot ⟨n, hn, he⟩
  · rintro c ⟨n, hn, rfl⟩
    exact hapart n hn

end Apart

/-- A request that writes no container of a caller changes one node's mapping at most. -/
theorem framed_perform (hw : Reached w) {call : Call} (hc : call.InScope w)
    (hwritten : call.written? = none) :
    Framed w (w.perform call).workspace call.changed? := by
  have hgrows : Grows w (w.perform call).workspace := grows_perform hc
  refine ⟨fun c => getElem?_perform hwritten, fun c hlt hne => ?_, fun v hv hapart => ?_,
    fun n hn => hgrows.properties_eq hn, fun m hm hapart => ?_⟩
  · apply Heap.entries?_congr
    intro b hb
    exact getElem?_perform hwritten (Nat.lt_of_le_of_lt hb.le hlt) fun n hn he => hne n hn (he ▸ hb)
  · exact (agree_perform hw.stored hwritten (below_of_inScope hv) hapart).datum_eq
  · rw [propertiesOf, propertiesOf, hgrows.properties_eq hm]
    refine (agree_perform hw.stored hwritten ?_ hapart).datum_eq
    rw [hw.stored.properties_eq hm]
    exact hw.stored.lt_size hm (hw.stored.properties_eq hm)

/-- An override that is answered leads to its value along the path that it names. -/
theorem valueAlong?_addOverride (hw : Reached w) {n : NodeId} (hn : n < w.nodes.size)
    {path value : Value} (h : w.addOverride n path value = .ok w') :
    ∃ s, path = .text s ∧
      w'.heap.valueAlong? (w.propertyCell n) (Text.split '.' s) = some value := by
  obtain ⟨⟨⟩, -, h⟩ := bind_eq_ok.mp h
  obtain ⟨⟨⟩, -, h⟩ := bind_eq_ok.mp h
  obtain ⟨segments, hsegments, h⟩ := bind_eq_ok.mp h
  obtain ⟨⟨⟩, -, h⟩ := bind_eq_ok.mp h
  cases h
  have hsegments := mapError_eq_ok.mp hsegments
  unfold splitOverridePath at hsegments
  cases htext : (w.heap.datum path).text? with
  | none =>
    rw [htext] at hsegments
    cases hsegments
  | some s =>
    rw [htext] at hsegments
    dsimp only at hsegments
    split at hsegments
    · cases hsegments
    · cases hsegments
      refine ⟨s, eq_text_of_text?_datum htext, ?_⟩
      obtain ⟨c, es, hc, hes, -⟩ := hw.stored.own n hn
      have hcell : w.propertyCell n = c := by rw [propertyCell, hc]
      rw [(sameTrees_markBuilding ..).heap_eq, hcell]
      apply Heap.valueAlong?_setNested hes
      simp [Text.split, Text.splitChars_ne_nil]

end Workspace

namespace Session

section after

variable {α β : Type}

/-- The workspace after work on a session, whether or not the work ends in a failure. -/
def after (s : Session) (p : Work α) : Workspace := (p.run.run s).2.workspace

/-- Work that changes at most the lifecycle of stacks. -/
def KeepsTrees (p : Work α) : Prop := ∀ s : Session, s.workspace.SameTrees (s.after p)

/-- Work goes on where it is until it ends in a failure. -/
theorem after_bind (s : Session) (p : Work α) (g : α → Work β) :
    s.after (p >>= g) =
      match p.run.run s with
      | (.ok a, s') => s'.after (g a)
      | (.error _, s') => s'.workspace := by
  unfold after ExceptT.run StateT.run
  simp only [bind, ExceptT.bind, ExceptT.mk, StateT.bind, ExceptT.bindCont]
  cases p s with
  | mk r s' => cases r <;> rfl

theorem keepsTrees_pure (a : α) : KeepsTrees (pure a : Work α) := fun _ => .refl _

theorem KeepsTrees.bind {p : Work α} {g : α → Work β} (hp : KeepsTrees p)
    (hg : ∀ a, KeepsTrees (g a)) : KeepsTrees (p >>= g) := by
  intro s
  have hs := hp s
  rw [after_bind]
  unfold after at hs
  split
  · next a s' hrun =>
    rw [hrun] at hs
    exact hs.trans (hg a s')
  · next f s' hrun =>
    rw [hrun] at hs
    exact hs

theorem keepsTrees_get : KeepsTrees (get : Work Session) := fun _ => .refl _

theorem keepsTrees_note (e : Event) : KeepsTrees (note e) := fun _ => .refl _

theorem keepsTrees_orFail {ε : Type} (failure : ε → Failure) (r : Except ε α) :
    KeepsTrees (orFail failure r) := by
  cases r <;> exact fun _ => .refl _

theorem keepsTrees_withFiles (f : Environment → FileTree → FileTree × Except Failure α) :
    KeepsTrees (withFiles f) := by
  intro s
  have hrest : KeepsTrees (orFail id (f s.environment s.files).2) := keepsTrees_orFail _ _
  exact hrest { s with files := (f s.environment s.files).1 }

theorem keepsTrees_loadDocument (v : Value) : KeepsTrees (loadDocument v) :=
  keepsTrees_get.bind fun _ => (keepsTrees_orFail _ _).bind fun _ =>
    (keepsTrees_orFail _ _).bind fun _ => (keepsTrees_orFail _ _).bind fun _ =>
      (keepsTrees_note _).bind fun _ => (keepsTrees_orFail _ _).bind fun _ => keepsTrees_pure _

theorem keepsTrees_writeDocument (doc : Document) (outdir : String) (layout : Json.Layout) :
    KeepsTrees (writeDocument doc outdir layout) :=
  (keepsTrees_withFiles _).bind fun _ => (keepsTrees_note _).bind fun _ => keepsTrees_pure _

/-- Asks a question about a document that is taken from a value. -/
def ask (v : Value) (question : Workspace → Document → Except Failure α) : Work α := do
  let doc ← loadDocument v
  let w := (← get).workspace
  orFail id (question w doc)

theorem keepsTrees_ask (v : Value) (question : Workspace → Document → Except Failure α) :
    KeepsTrees (ask v question) :=
  (keepsTrees_loadDocument v).bind fun _ => keepsTrees_get.bind fun _ => keepsTrees_orFail _ _

theorem after_perform (s : Session) (call : Call) :
    s.after (perform call) = (s.workspace.perform call).workspace := by
  unfold perform
  rw [after_bind]
  change after _ (orFail _ _) = _
  cases (s.workspace.perform call).reply <;> rfl

theorem keepsTrees_synthesize (target : Value) (emit : Bool) :
    KeepsTrees (perform (.synthesize target emit)) := by
  intro s
  rw [after_perform]
  have heffect := Workspace.effect_perform s.workspace (.synthesize target emit)
  generalize (s.workspace.perform (.synthesize target emit)).workspace = w' at heffect
  cases heffect with
  | closing => exact Workspace.sameTrees_foldl_close _ _

end after

end Session

namespace Trial

open Session

theorem keepsTrees_document (target : Value) (emit : Bool) : KeepsTrees (document target emit) := by
  refine (keepsTrees_synthesize target emit).bind fun reply => ?_
  cases reply <;> exact keepsTrees_pure _

theorem keepsTrees_synth (target : Value) (emit : Bool) (layout : Json.Layout) :
    KeepsTrees (synth target emit layout) :=
  (keepsTrees_document target emit).bind fun _ => keepsTrees_orFail _ _

theorem keepsTrees_directoryOr (scratch outdir : String) :
    KeepsTrees (directoryOr scratch outdir) := by
  unfold directoryOr
  split
  · exact (keepsTrees_withFiles _).bind fun _ => keepsTrees_pure _
  · exact keepsTrees_pure _

theorem keepsTrees_fullSynth (scratch : String) (target : Value) (outdir : String) :
    KeepsTrees (fullSynth scratch target outdir) :=
  keepsTrees_get.bind fun _ => (keepsTrees_directoryOr _ _).bind fun _ =>
    (keepsTrees_document _ _).bind fun _ => (keepsTrees_writeDocument _ _ _).bind fun _ =>
      keepsTrees_pure _

end Trial

namespace Session

open Workspace

/-- Whatever is asked, answered or not, the containers of callers and those that nodes show stay as
they are: a request to set a property or an override changes the mapping of its node, where it
shows, and what draws on that mapping. No other request, no question and no writing of documents
changes any. A mapping that stands in no container and behind no view is drawn on by itself
alone. -/
theorem containers_kept {s : Session} (hw : Reached s.workspace) :
    (∀ call : Call, call.InScope s.workspace → call.written? = none →
      Framed s.workspace (s.after (perform call)) call.changed?) ∧
    (∀ c, s.workspace.heap.Solitary c → ∀ v, s.workspace.heap.DrawsOn v c → v = .cell c) ∧
    (∀ n < s.workspace.nodes.size, ∀ path value w',
      s.workspace.addOverride n path value = .ok w' →
        s.after (perform (.addOverride n path value)) = w' ∧ ∃ text, path = .text text ∧
          w'.heap.valueAlong? (s.workspace.propertyCell n) (Text.split '.' text) = some value) ∧
    (∀ (α : Type) v (question : Workspace → Document → Except Failure α),
      Framed s.workspace (s.after (ask v question)) none) ∧
    (∀ doc outdir layout, Framed s.workspace (s.after (writeDocument doc outdir layout)) none) ∧
    (∀ target emit layout, Framed s.workspace (s.after (Trial.synth target emit layout)) none) ∧
    ∀ scratch target outdir,
      Framed s.workspace (s.after (Trial.fullSynth scratch target outdir)) none := by
  refine ⟨?_, fun c hc v hd => hc.eq_of_drawsOn hd, ?_, ?_, ?_, ?_, ?_⟩
  · intro call hc hwritten
    rw [after_perform]
    exact framed_perform hw hc hwritten
  · intro n hn path value w' h
    refine ⟨?_, valueAlong?_addOverride hw hn h⟩
    rw [after_perform, Workspace.perform, h]
    rfl
  · exact fun α v question => .of_sameTrees (keepsTrees_ask v question s)
  · exact fun doc outdir layout => .of_sameTrees (keepsTrees_writeDocument doc outdir layout s)
  · exact fun target emit layout => .of_sameTrees (Trial.keepsTrees_synth target emit layout s)
  · exact fun scratch target outdir =>
      .of_sameTrees (Trial.keepsTrees_fullSynth scratch target outdir s)

/-- Requests that put a mapping into itself and declare two resources whose properties share it. -/
def tangledCalls : List Call :=
  [.createApp "", .createStack 0 (.text "stack"), .keep (.mapping []),
    .put 1 (.text "self") (.cell 1), .keep (.mapping [(.text "tags", .cell 1)]),
    .addBlock 0 .resource (.text "vpc") (.text "a") (.cell 2),
    .addBlock 0 .resource (.text "vpc") (.text "b") (.cell 2)]

/-- A session in which two resources share a mapping that stands inside itself. -/
def tangled : Session := { environment := { cwd := "/" }, workspace := run {} tangledCalls }

/-- An override that goes twice through the shared mapping leaves it as it is, and the other
resource. -/
theorem containers_kept_tangled :
    Reached tangled.workspace ∧ Framed tangled.workspace
      (tangled.after (perform (.addOverride 1 (.text "tags.self.owner") (.text "me")))) (some 1) ∧
    (tangled.workspace.addOverride 1 (.text "tags.self.owner") (.text "me")).isOk = true := by
  have hw : Reached (run {} tangledCalls) := Reached.start.run (by decide +kernel)
  have hframed := (containers_kept (s := tangled) hw).1
    (.addOverride 1 (.text "tags.self.owner") (.text "me")) (by decide +kernel) rfl
  exact ⟨hw, hframed, by decide +kernel⟩

/-- Requests that declare two resources and make the properties of the first a property of the
second. -/
def handedCalls : List Call :=
  [.createApp "", .createStack 0 (.text "stack"),
    .addBlock 0 .resource (.text "vpc") (.text "a") .null,
    .addBlock 0 .resource (.text "vpc") (.text "b") .null,
    .setProperty 2 (.text "peer") (.cell 1)]

/-- A session in which a resource has the properties of another among its own. -/
def handed : Session := { environment := { cwd := "/" }, workspace := run {} handedCalls }

/-- An override of the first resource changes what the second one shows. -/
theorem containers_changed_handed :
    Reached handed.workspace ∧
    (Call.addOverride 1 (.text "port") (.text "80")).InScope handed.workspace ∧
    (handed.after (perform (.addOverride 1 (.text "port") (.text "80")))).propertiesOf 2 ≠
      handed.workspace.propertiesOf 2 := by
  refine ⟨Reached.start.run (by decide +kernel), by decide +kernel, fun he => ?_⟩
  have hport : ∀ d : Datum, d = handed.workspace.propertiesOf 2 →
      (d.field? "peer").bind (Datum.field? · "port") = none := by
    rintro d rfl
    rfl
  exact absurd (hport _ he) (by simp only [after_perform]; decide +kernel)

end Session

end Groundplan
