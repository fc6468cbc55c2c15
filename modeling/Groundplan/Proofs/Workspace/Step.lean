import Groundplan.Proofs.Sequencing
import Groundplan.Proofs.Workspace.Scope

/-!
# What one request can do

`Effect` says of each request what it does to a workspace, with all that was found in order before.
`Step` lists the ways in which any request in scope can leave a workspace. Whatever holds at first and
is kept by each of them holds of every workspace that is `Reached`. Where the caller writes no
container that a node holds, the workspace is `Built`.
-/

namespace Groundplan

/-- A text that can be an identifier: not blank and without a slash. -/
def IsIdentifier (s : String) : Prop := Text.isBlankText s = false ∧ '/' ∉ s.toList

/-- The stacks that a request tries to make documents of, in order. -/
def Call.attempts (w : Workspace) : Call → List NodeId
  | .synthesize target _ =>
      match target with
      | .atom (.entity (.node stack true)) => [stack]
      | _ => []
  | .synthesizeApp app emit =>
      -- those whose documents were made, and the one that failed
      ((w.app app).registry.take ((w.synthesizeApp app emit).2.1.length + 1)).map (·.2)
  | _ => []

namespace Workspace

/-- The workspace with a new, empty stack of an app. -/
def withStack (w : Workspace) (a : AppId) (name : String) : Workspace :=
  (w.addOwning { id := name, stack := some { app := some a } } []).1.modifyApp a fun app =>
    { app with registry := app.registry ++ [(name, w.nodes.size)] }

/-- The workspace with a new node below a parent. -/
def withChild (w : Workspace) (parent : NodeId) (n : Node) (entries : Entries Value) : Workspace :=
  ((w.addOwning n entries).1.attach parent w.nodes.size).markBuilding parent

/-- Entries that were found fit to be properties, at some path. -/
def Fit (w : Workspace) (es : Entries Value) : Prop := ∃ path, w.checkProperties path es = .ok ()

/-- A value that was found fit to be a property, at some path. -/
def FitValue (w : Workspace) (v : Value) : Prop :=
  ∃ path, w.checkValue path v = .ok ()

/-- What can be declared below a parent: a group without properties, or a block with fit ones. -/
inductive Declared (w : Workspace) : Node → Entries Value → Prop
  | group (id : String) : Declared w { id := id } []
  | typed (id : String) (kind : TypedKind) (typeTag : Option String)
      (htag : ∀ t ∈ typeTag, IsIdentifier t) : Declared w
        { id := id, kind := .block kind.kind, typeTag := typeTag } []
  | typedWith (id : String) (kind : TypedKind) (typeTag : Option String)
      (htag : ∀ t ∈ typeTag, IsIdentifier t) {c : CellId} {es : Entries Value}
      (hc : (Value.cell c).InScope w) (hes : w.heap.entries? c = some es) (hfit : w.Fit es) :
      Declared w { id := id, kind := .block kind.kind, typeTag := typeTag } es
  | output (id : String) {value description sensitive : Value} (hv : value.InScope w)
      (hd : description.InScope w) (hs : sensitive.InScope w)
      (hfit : w.Fit (outputEntries value description sensitive)) :
      Declared w { id := id, kind := .block .output } (outputEntries value description sensitive)

/-- A place below a parent that a new node can take. -/
structure Vacant (w : Workspace) (parent : NodeId) (id : String) : Prop where
  isOpen : w.state? parent ≠ some .synthesized
  isIdentifier : IsIdentifier id
  unused : w.findChild parent id = none

/-- A node with properties that can be changed. -/
structure Changeable (w : Workspace) (n : NodeId) : Prop where
  isOpen : w.state? n ≠ some .synthesized
  isBlock : (w.node n).kind ≠ .group

/-- What a request does to a workspace: what it writes once it has found all in order, or, if it is
refused or asks for documents, no more than to close the stacks that it tries. -/
inductive Effect (w : Workspace) : Call → Workspace → Prop
  | closing (call : Call) : Effect w call ((call.attempts w).foldl close w)
  | createApp (outdir : String) : Effect w (.createApp outdir) (w.createApp outdir).1
  | createStack (a : AppId) {name : String} (hid : IsIdentifier name)
      (hfree : w.findStack a name = none) :
      Effect w (.createStack a (.text name)) (w.withStack a name)
  | addConstruct {parent : NodeId} {id : String} (hplace : w.Vacant parent id) :
      Effect w (.addConstruct parent (.text id)) (w.withChild parent { id := id } [])
  | addBlock {parent : NodeId} (kind : TypedKind) {typeTag : Value} {tag : Option String}
      {id : String} {properties : Value} {es : Entries Value} (hplace : w.Vacant parent id)
      (hnone : tag = none → w.heap.datum typeTag = .null) (htag : ∀ t ∈ tag, IsIdentifier t)
      (hes : properties.isNull = true ∧ es = [] ∨
        w.heap.entriesOf? properties = some es ∧ w.Fit es) :
      Effect w (.addBlock parent kind typeTag (.text id) properties)
        (w.withChild parent { id := id, kind := .block kind.kind, typeTag := tag } es)
  | addOutput {parent : NodeId} {id : String} {value description sensitive : Value}
      (hplace : w.Vacant parent id)
      (hfit : w.Fit (outputEntries value description sensitive)) :
      Effect w (.addOutput parent (.text id) value description sensitive)
        (w.withChild parent { id := id, kind := .block .output }
          (outputEntries value description sensitive))
  | setProperty {n : NodeId} {key : String} {value : Value} (hn : w.Changeable n)
      (hkey : key ≠ "") (hfit : w.FitValue value) :
      Effect w (.setProperty n (.text key) value)
        ((w.withHeap (w.heap.setEntry (w.propertyCell n) (.text key) value)).markBuilding n)
  | addOverride {n : NodeId} {path : String} {value : Value} (hn : w.Changeable n)
      (hsegments : ∀ s ∈ Text.split '.' path, s ≠ "") (hfit : w.FitValue value) :
      Effect w (.addOverride n (.text path) value)
        ((w.withHeap (w.heap.setNested (w.propertyCell n) (Text.split '.' path)
          value)).markBuilding n)
  | keep (cell : Cell) : Effect w (.keep cell) (w.withHeap (w.heap.alloc cell).1)
  | push (list : CellId) (item : Value) :
      Effect w (.push list item) (w.withHeap (w.heap.pushItem list item))
  | put (mapping : CellId) (key : Key) (value : Value) :
      Effect w (.put mapping key value) (w.withHeap (w.heap.setEntry mapping key value))

/-- The ways in which a request can leave a workspace, if it writes only the containers allowed. -/
inductive Step (w : Workspace) (allowed : CellId → Prop) : Workspace → Prop
  | same : Step w allowed w
  | app (a : App) (ha : a.registry = []) : Step w allowed { w with apps := w.apps.push a }
  | stack (a : AppId) (name : String) (ha : a < w.apps.size) (hid : IsIdentifier name)
      (hfree : w.findStack a name = none) : Step w allowed (w.withStack a name)
  | child (parent : NodeId) {n : Node} {es : Entries Value} (hp : parent < w.nodes.size)
      (hopen : w.state? parent ≠ some .synthesized) (hid : IsIdentifier n.id)
      (hfree : w.findChild parent n.id = none) (hn : w.Declared n es) :
      Step w allowed (w.withChild parent n es)
  | property (n : NodeId) (key : String) (v : Value) (hn : n < w.nodes.size)
      (hopen : w.state? n ≠ some .synthesized) (hblock : (w.node n).kind ≠ .group)
      (hkey : key ≠ "") (hv : v.InScope w) (hfit : w.FitValue v) :
      Step w allowed
        ((w.withHeap (w.heap.setEntry (w.propertyCell n) (.text key) v)).markBuilding n)
  | override (n : NodeId) (segments : List String) (v : Value) (hn : n < w.nodes.size)
      (hopen : w.state? n ≠ some .synthesized) (hblock : (w.node n).kind ≠ .group)
      (hsegments : ∀ s ∈ segments, s ≠ "") (hv : v.InScope w) (hfit : w.FitValue v) :
      Step w allowed
        ((w.withHeap (w.heap.setNested (w.propertyCell n) segments v)).markBuilding n)
  | keep (cell : Cell) (hc : cell.InScope w) : Step w allowed (w.withHeap (w.heap.alloc cell).1)
  | push (list : CellId) (item : Value) (hl : list < w.heap.cells.size) (hfree : ¬ w.Owns list)
      (hi : item.InScope w) (ha : allowed list) : Step w allowed (w.withHeap (w.heap.pushItem list item))
  | put (mapping : CellId) (key : Key) (v : Value) (hm : mapping < w.heap.cells.size)
      (hfree : ¬ w.Owns mapping) (hk : key.InScope w) (hv : v.InScope w) (ha : allowed mapping) :
      Step w allowed (w.withHeap (w.heap.setEntry mapping key v))
  | closed (locked : List NodeId) : Step w allowed (locked.foldl close w)

variable {w : Workspace} {allowed : CellId → Prop}

/-- Only a text reads as a text. -/
theorem eq_text_of_text?_datum {v : Value} {s : String} (h : (w.heap.datum v).text? = some s) :
    v = .text s := by
  cases v with
  | atom a =>
    rw [Heap.datum, Heap.read_atom] at h
    unfold Datum.text? at h
    split at h
    · next he =>
      cases he
      cases h
      rfl
    · cases h
  | cell id =>
    rw [Heap.datum, Heap.read_cell_succ, if_neg List.not_mem_nil, Heap.layer] at h
    split at h <;> cases h

private theorem identifier_of_check {label s : String} {v : Value}
    (h : checkIdentifier w.naming label (w.heap.datum v) = .ok s) : v = .text s ∧ IsIdentifier s := by
  obtain ⟨ht, hb, hs⟩ := checkIdentifier_eq_ok h
  exact ⟨eq_text_of_text?_datum ht, hb, by simpa using hs⟩

private theorem effect_outcomeOf {call : Call} {α : Type} {result : Except Fault (Workspace × α)}
    {reply : α → Reply} {events : Workspace → α → List Event} (hnone : call.attempts w = [])
    (h : ∀ w' a, result = .ok (w', a) → w.Effect call w') :
    w.Effect call (w.outcomeOf result reply events).workspace := by
  cases result with
  | error fault =>
    have hclosing := Effect.closing (w := w) call
    rwa [hnone] at hclosing
  | ok r => exact h r.1 r.2 rfl

private theorem effect_createStack {a : AppId} {name : Value} {w' : Workspace} {n : NodeId}
    (h : w.createStack a name = .ok (w', n)) : w.Effect (.createStack a name) w' := by
  obtain ⟨s, hs, h⟩ := bind_eq_ok.mp h
  by_cases hf : (w.findStack a s).isSome
  · simp [hf, throw, throwThe, MonadExceptOf.throw, bind, Except.bind] at h
  · simp only [hf, Bool.false_eq_true, ↓reduceIte] at h
    cases h
    obtain ⟨rfl, hid⟩ := identifier_of_check hs
    exact .createStack a hid (by simpa using hf)

private theorem state?_ne_of_checkOpen {n : NodeId} (h : w.checkOpen n = .ok ()) :
    w.state? n ≠ some .synthesized := by
  intro hs
  simp [checkOpen, hs] at h

private theorem place_eq_ok {parent : NodeId} {id : String} {n : Node} {es : Entries Value}
    (hopen : w.checkOpen parent = .ok ()) (hid : IsIdentifier id) {w' : Workspace} {child : NodeId}
    (h : w.place parent id n es = .ok (w', child)) :
    w.Vacant parent id ∧ w' = w.withChild parent { n with id := id } es := by
  unfold place at h
  by_cases hf : (w.findChild parent id).isSome
  · simp [hf, throw, throwThe, MonadExceptOf.throw, bind, Except.bind] at h
  · simp only [hf, Bool.false_eq_true, ↓reduceIte] at h
    cases h
    exact ⟨⟨state?_ne_of_checkOpen hopen, hid, by simpa using hf⟩, rfl⟩

private theorem addEntries_eq_ok {parent : NodeId} {kind : BlockKind} {typeTag : Option String}
    {id : String} {es : Entries Value} (hid : IsIdentifier id) {w' : Workspace} {n : NodeId}
    (h : w.addEntries parent kind typeTag id es = .ok (w', n)) :
    w.Vacant parent id ∧
      w' = w.withChild parent { id := id, kind := .block kind, typeTag := typeTag } es := by
  obtain ⟨⟨⟩, hopen, h⟩ := bind_eq_ok.mp h
  have h : w.place parent id { kind := .block kind, typeTag := typeTag } es = .ok (w', n) := h
  obtain ⟨hplace, rfl⟩ := place_eq_ok hopen hid h
  exact ⟨hplace, rfl⟩

private theorem effect_addConstruct {parent : NodeId} {id : Value} {w' : Workspace} {n : NodeId}
    (h : w.addConstruct parent id = .ok (w', n)) : w.Effect (.addConstruct parent id) w' := by
  obtain ⟨⟨⟩, hopen, h⟩ := bind_eq_ok.mp h
  obtain ⟨s, hs, h⟩ := bind_eq_ok.mp h
  obtain ⟨hname, hid⟩ := identifier_of_check hs
  obtain ⟨hplace, rfl⟩ := place_eq_ok hopen hid h
  rw [hname]
  exact .addConstruct hplace

private theorem checkTypeTag_eq_ok {typeTag : Value} {tag : Option String}
    (h : checkTypeTag w.naming (w.heap.datum typeTag) = .ok tag) :
    (tag = none → w.heap.datum typeTag = .null) ∧ ∀ t ∈ tag, IsIdentifier t := by
  unfold checkTypeTag at h
  split at h
  · next hnull =>
    cases h
    exact ⟨fun _ => hnull, by simp⟩
  · obtain ⟨s, hs, rfl⟩ := map_eq_ok.mp h
    obtain ⟨-, hid⟩ := identifier_of_check hs
    refine ⟨by simp, ?_⟩
    rintro t ht
    obtain rfl : s = t := by simpa using ht
    exact hid

private theorem validProperties_eq_ok {path : String} {properties : Value} {es : Entries Value}
    (h : w.validProperties path properties = .ok es) :
    properties.isNull = true ∧ es = [] ∨
      w.heap.entriesOf? properties = some es ∧ w.Fit es := by
  unfold validProperties at h
  split at h
  · next hnull =>
    cases h
    exact .inl ⟨hnull, rfl⟩
  · split at h
    · cases h
    · next hentries =>
      split at h
      · next hfit =>
        cases h
        exact .inr ⟨hentries, _, hfit⟩
      · cases h

private theorem effect_addBlock {parent : NodeId} {kind : TypedKind}
    {typeTag id properties : Value} {w' : Workspace} {n : NodeId}
    (h : w.addBlock parent kind typeTag id properties = .ok (w', n)) :
    w.Effect (.addBlock parent kind typeTag id properties) w' := by
  obtain ⟨tag, htag, h⟩ := bind_eq_ok.mp h
  obtain ⟨s, hs, h⟩ := bind_eq_ok.mp h
  obtain ⟨es, hes, h⟩ := bind_eq_ok.mp h
  obtain ⟨hname, hid⟩ := identifier_of_check hs
  obtain ⟨hplace, rfl⟩ := addEntries_eq_ok hid h
  obtain ⟨hnone, htag⟩ := checkTypeTag_eq_ok htag
  rw [hname]
  exact .addBlock kind hplace hnone htag (validProperties_eq_ok (mapError_eq_ok.mp hes))

private theorem effect_addOutput {parent : NodeId} {id value description sensitive : Value}
    {w' : Workspace} {n : NodeId}
    (h : w.addOutput parent id value description sensitive = .ok (w', n)) :
    w.Effect (.addOutput parent id value description sensitive) w' := by
  obtain ⟨s, hs, h⟩ := bind_eq_ok.mp h
  obtain ⟨⟨⟩, hfit, h⟩ := bind_eq_ok.mp h
  obtain ⟨hname, hid⟩ := identifier_of_check hs
  obtain ⟨hplace, rfl⟩ := addEntries_eq_ok hid h
  rw [hname]
  exact .addOutput hplace ⟨_, mapError_eq_ok.mp hfit⟩

private theorem changeable_of_checks {n : NodeId} (hopen : w.checkOpen n = .ok ())
    (hblock : w.checkBlock n = .ok ()) : w.Changeable n where
  isOpen := state?_ne_of_checkOpen hopen
  isBlock hk := by simp [checkBlock, hk] at hblock

/-- A key that is accepted is a text that is not empty. -/
theorem checkKey_eq_ok {naming : Naming} {path s : String} {k : Key}
    (h : checkKey naming path k = .ok s) : k = .text s ∧ s ≠ "" := by
  unfold checkKey at h
  split at h
  · split at h
    · cases h
    · next he =>
      cases h
      exact ⟨rfl, by simpa using he⟩
  · cases h

private theorem effect_setProperty {n : NodeId} {key value : Value} {w' : Workspace}
    (h : w.setProperty n key value = .ok w') : w.Effect (.setProperty n key value) w' := by
  obtain ⟨⟨⟩, hopen, h⟩ := bind_eq_ok.mp h
  obtain ⟨⟨⟩, hblock, h⟩ := bind_eq_ok.mp h
  obtain ⟨k, hk, h⟩ := bind_eq_ok.mp h
  obtain ⟨⟨⟩, hfit, h⟩ := bind_eq_ok.mp h
  cases h
  have hk := mapError_eq_ok.mp hk
  unfold checkKeyDatum at hk
  split at hk
  · next s hs =>
    obtain ⟨he, hne⟩ := checkKey_eq_ok hk
    cases he
    obtain rfl := eq_text_of_text?_datum hs
    exact .setProperty (changeable_of_checks hopen hblock) hne ⟨_, mapError_eq_ok.mp hfit⟩
  · cases hk

private theorem effect_addOverride {n : NodeId} {path value : Value} {w' : Workspace}
    (h : w.addOverride n path value = .ok w') : w.Effect (.addOverride n path value) w' := by
  obtain ⟨⟨⟩, hopen, h⟩ := bind_eq_ok.mp h
  obtain ⟨⟨⟩, hblock, h⟩ := bind_eq_ok.mp h
  obtain ⟨segments, hseg, h⟩ := bind_eq_ok.mp h
  obtain ⟨⟨⟩, hfit, h⟩ := bind_eq_ok.mp h
  cases h
  have hseg := mapError_eq_ok.mp hseg
  unfold splitOverridePath at hseg
  split at hseg
  · cases hseg
  · next s hs =>
    dsimp only at hseg
    split at hseg
    · cases hseg
    · next hany =>
      cases hseg
      obtain rfl := eq_text_of_text?_datum hs
      refine .addOverride (changeable_of_checks hopen hblock) ?_ ⟨_, mapError_eq_ok.mp hfit⟩
      intro t ht he
      exact hany (List.any_eq_true.mpr ⟨t, ht, by simp [he]⟩)

private theorem synthesize_fst (target : Value) (emit : Bool) :
    (w.synthesize target emit).1 =
      ((Call.synthesize target emit).attempts w).foldl close w := by
  unfold synthesize Call.attempts
  split <;> simp

/-- Making the documents of stacks closes those tried: those made, and the one that fails. -/
private theorem synthesizeStacks_fst (emit : Bool) (registry : List (String × NodeId)) :
    (w.synthesizeStacks emit registry).1 =
      ((registry.take ((w.synthesizeStacks emit registry).2.1.length + 1)).map
        (·.2)).foldl close w := by
  induction registry generalizing w with
  | nil => rfl
  | cons e rest ih =>
    obtain ⟨name, stack⟩ := e
    have hclose := synthesize_fst (w := w) (.atom (.entity (.node stack true))) emit
    unfold synthesizeStacks
    split
    · next he =>
      rw [he] at hclose
      exact hclose
    · next w' _ he =>
      rw [he] at hclose
      have hw' : w' = w.close stack := hclose
      simp only [List.length_cons, List.take_succ_cons, List.map_cons, List.foldl_cons]
      rw [ih, hw']

/-- What becomes of a workspace when a request is answered or refused. -/
theorem effect_perform (w : Workspace) (call : Call) :
    w.Effect call (w.perform call).workspace := by
  cases call with
  | createApp outdir => exact .createApp outdir
  | createStack app name => exact effect_outcomeOf rfl fun _ _ h => effect_createStack h
  | addConstruct parent id => exact effect_outcomeOf rfl fun _ _ h => effect_addConstruct h
  | addBlock parent kind typeTag id properties =>
    exact effect_outcomeOf rfl fun _ _ h => effect_addBlock h
  | addOutput parent id value description sensitive =>
    exact effect_outcomeOf rfl fun _ _ h => effect_addOutput h
  | setProperty node key value =>
    apply effect_outcomeOf rfl
    intro w' _ h
    obtain ⟨_, hset, he⟩ := map_eq_ok.mp h
    cases he
    exact effect_setProperty hset
  | addOverride node path value =>
    apply effect_outcomeOf rfl
    intro w' _ h
    obtain ⟨_, hadd, he⟩ := map_eq_ok.mp h
    cases he
    exact effect_addOverride hadd
  | keep cell => exact .keep cell
  | push list item => exact .push list item
  | put mapping key value => exact .put mapping key value
  | synthesize target emit =>
    have he : (w.perform (.synthesize target emit)).workspace = (w.synthesize target emit).1 := rfl
    rw [he, synthesize_fst]
    exact .closing _
  | synthesizeApp app emit =>
    have he : (w.perform (.synthesizeApp app emit)).workspace =
        (w.synthesizeStacks emit (w.app app).registry).1 := rfl
    rw [he, synthesizeStacks_fst]
    exact .closing (.synthesizeApp app emit)

/-- A request in scope that writes only the containers allowed takes one of the steps. -/
theorem step_perform {call : Call} (hc : call.InScope w) (ha : ∀ c ∈ call.written?, allowed c) :
    w.Step allowed (w.perform call).workspace := by
  have heffect := effect_perform w call
  generalize (w.perform call).workspace = w' at heffect
  cases heffect with
  | closing => exact .closed _
  | createApp outdir => exact .app _ rfl
  | createStack a hid hfree => exact .stack a _ hc.1 hid hfree
  | addConstruct hplace =>
    exact .child _ hc.1 hplace.isOpen hplace.isIdentifier hplace.unused (.group _)
  | addBlock kind hplace hnone htag hes =>
    obtain ⟨hp, -, -, hprops⟩ := hc
    refine .child _ hp hplace.isOpen hplace.isIdentifier hplace.unused ?_
    rcases hes with ⟨-, rfl⟩ | ⟨hes, hfit⟩
    · exact .typed _ kind _ htag
    · rename_i properties _
      cases properties with
      | atom a => cases hes
      | cell c => exact .typedWith _ kind _ htag hprops hes hfit
  | addOutput hplace hfit =>
    obtain ⟨hp, -, hv, hd, hs⟩ := hc
    exact .child _ hp hplace.isOpen hplace.isIdentifier hplace.unused (.output _ hv hd hs hfit)
  | setProperty hn hkey hfit => exact .property _ _ _ hc.1 hn.isOpen hn.isBlock hkey hc.2.2 hfit
  | addOverride hn hsegments hfit =>
    exact .override _ _ _ hc.1 hn.isOpen hn.isBlock hsegments hc.2.2 hfit
  | keep cell => exact .keep cell hc
  | push list item => exact .push list item hc.1 hc.2.1 hc.2.2 (ha list rfl)
  | put mapping key value =>
    exact .put mapping key value hc.1 hc.2.1 hc.2.2.1 hc.2.2.2 (ha mapping rfl)

/-- A workspace that requests in scope lead to. -/
inductive Reached : Workspace → Prop
  | start : Reached {}
  | step {w : Workspace} (hw : Reached w) (call : Call) (hc : call.InScope w) :
      Reached (w.perform call).workspace

/-- A workspace that requests in scope lead to of which none writes a container that a node holds. -/
inductive Built : Workspace → Prop
  | start : Built {}
  | step {w : Workspace} (hw : Built w) (call : Call) (hc : call.InScope w) (hs : call.Sparing w) :
      Built (w.perform call).workspace

/-- What is built is reached. -/
theorem Built.reached (hw : Built w) : Reached w := by
  induction hw with
  | start => exact .start
  | step _ call hc _ ih => exact .step ih call hc

/-- Requests in scope lead on from what is reached. -/
theorem Reached.run (hw : Reached w) {calls : List Call} (hc : Call.AllInScope w calls) :
    Reached (w.run calls) := by
  induction calls generalizing w with
  | nil => exact hw
  | cons call calls ih => exact ih (.step hw call hc.1) hc.2

/-- Requests in scope that write no container of a caller lead on from what is built. -/
theorem Built.run (hw : Built w) {calls : List Call} (hc : Call.AllInScope w calls)
    (hs : ∀ call ∈ calls, call.written? = none) : Built (w.run calls) := by
  induction calls generalizing w with
  | nil => exact hw
  | cons call calls ih =>
    have hspare : call.Sparing w := by
      intro c hmem
      rw [hs call List.mem_cons_self] at hmem
      cases hmem
    exact ih (.step hw call hc.1 hspare) hc.2 fun c hmem => hs c (List.mem_cons_of_mem _ hmem)

/-- What holds at first and is kept by every step holds of what is reached. -/
theorem Reached.invariant {P : Workspace → Prop} (start : P {})
    (step : ∀ w w', P w → w.Step (fun _ => True) w' → P w') (hw : Reached w) : P w := by
  induction hw with
  | start => exact start
  | step _ call hc ih => exact step _ _ ih (step_perform hc fun _ _ => trivial)

/-- Steps keep to the limits. -/
theorem Step.limits_eq {w' : Workspace} (h : w.Step allowed w') : w'.limits = w.limits := by
  cases h with
  | closed locked =>
    induction locked generalizing w with
    | nil => rfl
    | cons stack locked ih => exact ih.trans rfl
  | _ => rfl

/-- What is reached without limits is without limits. -/
theorem Reached.limits_eq (hw : Reached w) : w.limits = {} := by
  refine @Reached.invariant w (fun w => w.limits = {}) rfl ?_ hw
  intro _ _ h hstep
  exact hstep.limits_eq.trans h

/-- A naming shows as many digits as the limits of its workspace let it. -/
@[simp] theorem digits_naming (w : Workspace) : w.naming.digits = w.limits.digits := rfl

/-- What is reached without limits shows all digits. -/
theorem Reached.digits_eq_none (hw : Reached w) : w.naming.digits = none := by
  rw [digits_naming, hw.limits_eq]

end Workspace

end Groundplan
