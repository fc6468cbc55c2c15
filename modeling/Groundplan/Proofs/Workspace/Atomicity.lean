import Groundplan.Proofs.Workspace.Trees
import Groundplan.Session

/-!
# Refusals leave nothing behind

The requests to declare and to change something, told check by check and write by write, where a fault
leaves the workspace as far as it was written. All checks come before all writes, and no write fails:
so what is refused has written nothing. Told so, each request comes to what `perform` makes of it.
-/

namespace Groundplan

/-- Work on a workspace that keeps what was written when it ends in a fault. -/
abbrev Edit (α : Type) := ExceptT Fault (StateM Workspace) α

namespace Edit

section Work

variable {α β : Type} {w : Workspace}

/-- What work on a workspace gives, and the workspace that it leaves. -/
def result (p : Edit α) (w : Workspace) : Except Fault α × Workspace := p.run.run w

/-- Looks at the workspace, and may end in a fault. -/
def read (f : Workspace → Except Fault α) : Edit α := ExceptT.mk fun w => (f w, w)

/-- Writes the workspace. -/
def write (f : Workspace → Workspace × α) : Edit α := ExceptT.mk fun w => (.ok (f w).2, (f w).1)

/-- Writes the workspace where there is nothing to answer. -/
def change (f : Workspace → Workspace) : Edit Unit := write fun w => (f w, ())

@[simp] theorem result_read (f : Workspace → Except Fault α) : (read f).result w = (f w, w) := rfl

@[simp] theorem result_write (f : Workspace → Workspace × α) :
    (write f).result w = (.ok (f w).2, (f w).1) := rfl

@[simp] theorem result_change (f : Workspace → Workspace) :
    (change f).result w = (.ok (), f w) := rfl

/-- Work goes on where it is until it ends in a fault. -/
theorem result_bind (p : Edit α) (g : α → Edit β) :
    (p >>= g).result w =
      match p.result w with
      | (.ok a, w') => (g a).result w'
      | (.error fault, w') => (.error fault, w') := by
  unfold result ExceptT.run StateT.run
  simp only [bind, ExceptT.bind, ExceptT.mk, StateT.bind, ExceptT.bindCont]
  cases p w with
  | mk r w' => cases r <;> rfl

end Work

/-- Makes a node with properties of its own that stands in no tree. -/
def create (n : Node) (entries : Entries Value) : Edit NodeId := do
  let cell ← write fun w =>
    let (h, cell) := w.heap.alloc (.mapping entries)
    (w.withHeap h, cell)
  write fun w => w.addNode { n with properties := .cell cell }

/-- Moves the stack of a tree on if it is empty. -/
def markBuilding (n : NodeId) : Edit Unit := do
  let w ← get
  let root := w.root n
  match (w.node root).stack with
  | some s =>
      if s.state = .empty then
        change fun w => w.modifyNode root fun node =>
          { node with stack := some { s with state := .building } }
  | none => pure ()

/-- Takes an identifier. -/
def identifier (label : String) (v : Value) : Edit String :=
  read fun w => checkIdentifier w.naming label (w.heap.datum v)

/-- Makes a node the last child of another: it learns its parent, is listed, and is indexed. -/
def attach (parent child : NodeId) : Edit Unit := do
  change fun w => w.modifyNode child fun n => { n with parent := some parent }
  change fun w => w.modifyNode parent fun n => { n with children := n.children ++ [child] }
  change fun w => w.modifyNode parent
    fun n => { n with index := ((w.node child).id, child) :: n.index }

/-- Links a node below a parent. -/
def link (parent : NodeId) (id : Value) (n : Node) (entries : Entries Value) : Edit NodeId := do
  read (·.checkOpen parent)
  let id ← identifier "construct id" id
  read fun w =>
    if (w.findChild parent id).isSome then .error (.duplicateId id (w.path parent)) else .ok ()
  let child ← create { n with id := id } entries
  attach parent child
  markBuilding parent
  return child

/-- A new, empty stack of an app. -/
def createStack (a : AppId) (name : Value) : Edit NodeId := do
  let name ← identifier "stack name" name
  read fun w => if (w.findStack a name).isSome then .error (.duplicateName name) else .ok ()
  let stack ← create { id := name, stack := some { app := some a } } []
  change fun w => w.modifyApp a fun app => { app with registry := app.registry ++ [(name, stack)] }
  return stack

/-- A new resource, data source or provider. -/
def addBlock (parent : NodeId) (kind : TypedKind) (typeTag id properties : Value) :
    Edit NodeId := do
  let typeTag ← read fun w => Workspace.checkTypeTag w.naming (w.heap.datum typeTag)
  let name ← identifier "construct id" id
  let entries ← read fun w =>
    (w.validProperties (w.path parent ++ "/" ++ name) properties).mapError .property
  link parent id { kind := .block kind.kind, typeTag := typeTag } entries

/-- A new output. -/
def addOutput (parent : NodeId) (id value description sensitive : Value) : Edit NodeId := do
  let name ← identifier "construct id" id
  let entries := Workspace.outputEntries value description sensitive
  read fun w => (w.checkProperties (w.path parent ++ "/" ++ name) entries).mapError .property
  link parent id { kind := .block .output } entries

/-- Sets one property of a block. -/
def setProperty (n : NodeId) (key value : Value) : Edit Unit := do
  read (·.checkOpen n)
  read (·.checkBlock n)
  let key ← read fun w => (checkKeyDatum w.naming (w.path n) (w.heap.datum key)).mapError .property
  read fun w => (w.checkValue (keyPath (w.path n) key) value).mapError .property
  change fun w => w.withHeap (w.heap.setEntry (w.propertyCell n) (.text key) value)
  markBuilding n

/-- Goes down along segments from a mapping, with a copy of each mapping on the way put in its place,
and sets the last one. -/
def descend (value : Value) (cell : CellId) : List String → Edit Unit
  | [] => pure ()
  | [last] => change fun w => w.withHeap (w.heap.setEntry cell (.text last) value)
  | segment :: rest => do
      let found ← read fun w =>
        .ok (((w.heap.valueAt? cell (.text segment)).bind w.heap.entriesOf?).getD [])
      let copy ← write fun w =>
        let (h, copy) := w.heap.alloc (.mapping found)
        (w.withHeap h, copy)
      change fun w => w.withHeap (w.heap.setEntry cell (.text segment) (.cell copy))
      descend value copy rest

/-- Sets a nested property of a block. -/
def addOverride (n : NodeId) (path value : Value) : Edit Unit := do
  read (·.checkOpen n)
  read (·.checkBlock n)
  let segments ← read fun w => (splitOverridePath (w.heap.datum path)).mapError .property
  read fun w => (w.checkValue (keyPath (w.path n) ((w.heap.datum path).plain w.naming))
    value).mapError .property
  let cell ← read fun w => .ok (w.propertyCell n)
  descend value cell segments
  markBuilding n

section Atomic

variable {α β : Type}

/-- Work that ends in a fault has written nothing. -/
def Atomic (p : Edit α) : Prop := ∀ w fault w', p.result w = (.error fault, w') → w' = w

/-- Work that never ends in a fault. -/
def Settles (p : Edit α) : Prop := ∀ w, ∃ a w', p.result w = (.ok a, w')

theorem Settles.atomic {p : Edit α} (hp : p.Settles) : p.Atomic := by
  intro w fault w' h
  obtain ⟨a, w'', hok⟩ := hp w
  rw [hok] at h
  cases h

/-- To look before anything is written does no harm. -/
theorem Atomic.read_bind {f : Workspace → Except Fault α} {g : α → Edit β}
    (hg : ∀ a, (g a).Atomic) : (read f >>= g).Atomic := by
  intro w fault w' h
  rw [result_bind, result_read] at h
  cases hf : f w with
  | error e =>
    rw [hf] at h
    cases h
    rfl
  | ok a =>
    rw [hf] at h
    exact hg a w fault w' h

theorem settles_pure (a : α) : (pure a : Edit α).Settles := fun w => ⟨a, w, rfl⟩

theorem settles_write (f : Workspace → Workspace × α) : (write f).Settles := fun _ => ⟨_, _, rfl⟩

theorem settles_change (f : Workspace → Workspace) : (change f).Settles := fun _ => ⟨_, _, rfl⟩

theorem settles_get : (get : Edit Workspace).Settles := fun w => ⟨w, w, rfl⟩

theorem settles_read (f : Workspace → α) : (read fun w => .ok (f w)).Settles :=
  fun w => ⟨f w, w, rfl⟩

theorem Settles.bind {p : Edit α} {g : α → Edit β} (hp : p.Settles) (hg : ∀ a, (g a).Settles) :
    (p >>= g).Settles := by
  intro w
  obtain ⟨a, w', ha⟩ := hp w
  obtain ⟨b, w'', hb⟩ := hg a w'
  refine ⟨b, w'', ?_⟩
  rw [result_bind, ha]
  exact hb

theorem settles_create (n : Node) (entries : Entries Value) : (create n entries).Settles :=
  (settles_write _).bind fun _ => settles_write _

theorem settles_attach (parent child : NodeId) : (attach parent child).Settles :=
  (settles_change _).bind fun _ => (settles_change _).bind fun _ => settles_change _

theorem settles_markBuilding (n : NodeId) : (markBuilding n).Settles := by
  refine settles_get.bind fun w => ?_
  dsimp only
  split
  · split
    · exact settles_change _
    · exact settles_pure _
  · exact settles_pure _

theorem settles_descend (value : Value) (cell : CellId) (segments : List String) :
    (descend value cell segments).Settles := by
  induction segments generalizing cell with
  | nil => exact settles_pure _
  | cons segment rest ih =>
    cases rest with
    | nil => exact settles_change _
    | cons next rest =>
      exact (settles_read _).bind fun _ => (settles_write _).bind fun copy =>
        (settles_change _).bind fun _ => ih copy

/-- A node is linked once its place was found free. -/
theorem atomic_link (parent : NodeId) (id : Value) (n : Node) (entries : Entries Value) :
    (link parent id n entries).Atomic := by
  refine .read_bind fun _ => .read_bind fun id => .read_bind fun _ => Settles.atomic ?_
  exact (settles_create _ _).bind fun _ => (settles_attach _ _).bind fun _ =>
    (settles_markBuilding _).bind fun _ => settles_pure _

theorem atomic_createStack (a : AppId) (name : Value) : (createStack a name).Atomic := by
  refine .read_bind fun _ => .read_bind fun _ => Settles.atomic ?_
  exact (settles_create _ _).bind fun _ => (settles_change _).bind fun _ => settles_pure _

theorem atomic_addBlock (parent : NodeId) (kind : TypedKind) (typeTag id properties : Value) :
    (addBlock parent kind typeTag id properties).Atomic :=
  .read_bind fun _ => .read_bind fun _ => .read_bind fun _ => atomic_link _ _ _ _

theorem atomic_addOutput (parent : NodeId) (id value description sensitive : Value) :
    (addOutput parent id value description sensitive).Atomic :=
  .read_bind fun _ => .read_bind fun _ => atomic_link _ _ _ _

theorem atomic_setProperty (n : NodeId) (key value : Value) : (setProperty n key value).Atomic := by
  refine .read_bind fun _ => .read_bind fun _ => .read_bind fun _ => .read_bind fun _ =>
    Settles.atomic ?_
  exact (settles_change _).bind fun _ => settles_markBuilding _

theorem atomic_addOverride (n : NodeId) (path value : Value) :
    (addOverride n path value).Atomic := by
  refine .read_bind fun _ => .read_bind fun _ => .read_bind fun _ => .read_bind fun _ =>
    Settles.atomic ?_
  exact (settles_read _).bind fun _ => (settles_descend _ _ _).bind fun _ => settles_markBuilding _

end Atomic

section Agreement

variable {α : Type} {w : Workspace}

/-- What a request that is refused as a whole or answered comes to. -/
def settled (w : Workspace) : Except Fault (Workspace × α) → Except Fault α × Workspace
  | .error fault => (.error fault, w)
  | .ok (w', a) => (.ok a, w')

private theorem modifyNode_congr (w : Workspace) (n : NodeId) {f g : Node → Node}
    (h : f (w.node n) = g (w.node n)) : w.modifyNode n f = w.modifyNode n g := by
  unfold Workspace.modifyNode
  congr 1
  apply Array.ext
  · simp
  · intro m hf hg
    rw [Array.getElem_modify, Array.getElem_modify]
    split
    · next hm =>
      subst hm
      rw [Array.size_modify] at hf
      simpa [Workspace.node, Array.getD_eq_getD_getElem?, hf] using h
    · rfl

private theorem modifyNode_id (w : Workspace) (n : NodeId) : w.modifyNode n id = w := by
  unfold Workspace.modifyNode
  congr 1
  apply Array.ext
  · simp
  · intro m hf hg
    rw [Array.getElem_modify]
    split <;> rfl

private theorem modifyNode_modifyNode (w : Workspace) (n : NodeId) (f g : Node → Node) :
    (w.modifyNode n f).modifyNode n g = w.modifyNode n fun node => g (f node) := by
  unfold Workspace.modifyNode
  congr 1
  apply Array.ext
  · simp
  · intro m hf hg
    rw [Array.getElem_modify, Array.getElem_modify, Array.getElem_modify]
    split <;> rfl

/-- Attaching a node write by write: its id is what it was when it is indexed. -/
theorem result_attach (parent child : NodeId) :
    (attach parent child).result w = (.ok (), w.attach parent child) := by
  have hid : (((w.modifyNode child fun n => { n with parent := some parent }).modifyNode parent
      fun n => { n with children := n.children ++ [child] }).node child).id = (w.node child).id := by
    simp only [Workspace.node_modifyNode, apply_ite Node.id, ite_self]
  simp only [attach, result_bind, result_change, hid, modifyNode_modifyNode _ parent]
  rfl

theorem result_create (n : Node) (entries : Entries Value) :
    (create n entries).result w = (.ok (w.addOwning n entries).2, (w.addOwning n entries).1) := rfl

/-- A stack that is not empty is left as it is. -/
private theorem markBuilding_eq_self {n : NodeId}
    (h : ∀ s ∈ (w.node (w.root n)).stack, s.state ≠ .empty) : w.markBuilding n = w := by
  have hstack : (w.node (w.root n)).stack.map
      (fun s => { s with state := if s.state = .empty then .building else s.state }) =
        (w.node (w.root n)).stack := by
    cases hs : (w.node (w.root n)).stack with
    | none => rfl
    | some s => rw [Option.map_some, if_neg (h s hs)]
  refine (modifyNode_congr w _ (g := id) ?_).trans (modifyNode_id w _)
  rw [hstack]
  rfl

theorem result_markBuilding (n : NodeId) :
    (markBuilding n).result w = (.ok (), w.markBuilding n) := by
  have hget : (get : Edit Workspace).result w = (.ok w, w) := rfl
  rw [markBuilding, result_bind, hget]
  dsimp only
  cases hs : (w.node (w.root n)).stack with
  | none =>
    rw [markBuilding_eq_self (by simp [hs])]
    rfl
  | some s =>
    dsimp only
    by_cases he : s.state = .empty
    · rw [if_pos he, result_change, Workspace.markBuilding]
      congr 1
      apply modifyNode_congr
      rw [hs, Option.map_some, if_pos he]
    · rw [if_neg he, markBuilding_eq_self (by simpa [hs] using he)]
      rfl

/-- To look first and then to go on comes to the same told either way. -/
private theorem result_read_bind {β : Type} {f : Workspace → Except Fault α} {g : α → Edit β}
    {h : α → Except Fault (Workspace × β)}
    (hg : ∀ a, f w = .ok a → (g a).result w = settled w (h a)) :
    (read f >>= g).result w = settled w (f w >>= h) := by
  rw [result_bind, result_read]
  cases hf : f w with
  | error fault => rfl
  | ok a => exact hg a hf

/-- Linking a new node comes to looking whether it may be and then placing it. -/
theorem result_link (parent : NodeId) (id : Value) (n : Node) (entries : Entries Value) :
    (link parent id n entries).result w = settled w (do
      w.checkOpen parent
      let name ← checkIdentifier w.naming "construct id" (w.heap.datum id)
      w.place parent name n entries) := by
  refine result_read_bind fun _ _ => result_read_bind fun name _ => ?_
  rw [result_bind, result_read, Workspace.place]
  by_cases hf : (w.findChild parent name).isSome
  · simp only [hf, if_true]
    rfl
  · simp only [hf, result_bind, result_create, result_attach, result_markBuilding]
    rfl

theorem result_createStack (a : AppId) (name : Value) :
    (createStack a name).result w = settled w (w.createStack a name) := by
  refine result_read_bind fun name _ => ?_
  rw [result_bind, result_read]
  by_cases hf : (w.findStack a name).isSome
  · simp only [hf, if_true]
    rfl
  · simp only [hf, result_bind, result_create, result_change]
    rfl

theorem result_addConstruct (parent : NodeId) (id : Value) :
    (link parent id {} []).result w = settled w (w.addConstruct parent id) := result_link ..

/-- The id of a block is found in order twice, before its properties are looked at and after. -/
private theorem result_link_block {parent : NodeId} {id : Value} {name : String}
    (hid : checkIdentifier w.naming "construct id" (w.heap.datum id) = .ok name)
    (kind : BlockKind) (typeTag : Option String) (entries : Entries Value) :
    (link parent id { kind := .block kind, typeTag := typeTag } entries).result w =
      settled w (w.addEntries parent kind typeTag name entries) := by
  rw [result_link, hid]
  rfl

theorem result_addBlock (parent : NodeId) (kind : TypedKind) (typeTag id properties : Value) :
    (addBlock parent kind typeTag id properties).result w =
      settled w (w.addBlock parent kind typeTag id properties) := by
  refine result_read_bind fun tag _ => result_read_bind fun name hid =>
    result_read_bind fun entries _ => ?_
  exact result_link_block hid ..

theorem result_addOutput (parent : NodeId) (id value description sensitive : Value) :
    (addOutput parent id value description sensitive).result w =
      settled w (w.addOutput parent id value description sensitive) := by
  refine result_read_bind fun name hid => result_read_bind fun _ _ => ?_
  exact result_link_block hid ..

theorem result_setProperty (n : NodeId) (key value : Value) :
    (setProperty n key value).result w =
      settled w ((w.setProperty n key value).map fun w => (w, ())) := by
  simp only [Workspace.setProperty, map_bind]
  refine result_read_bind fun _ _ => result_read_bind fun _ _ => result_read_bind fun key _ =>
    result_read_bind fun _ _ => ?_
  rw [result_bind, result_change]
  exact result_markBuilding n

/-- Going down with copies sets the nested entry. -/
theorem result_descend (value : Value) (cell : CellId) (segments : List String) :
    (descend value cell segments).result w =
      (.ok (), w.withHeap (w.heap.setNested cell segments value)) := by
  induction segments generalizing w cell with
  | nil => rfl
  | cons segment rest ih =>
    cases rest with
    | nil => rfl
    | cons next rest =>
      simp only [descend, result_bind, result_read, result_write, result_change, ih]
      rfl

theorem result_addOverride (n : NodeId) (path value : Value) :
    (addOverride n path value).result w =
      settled w ((w.addOverride n path value).map fun w => (w, ())) := by
  simp only [Workspace.addOverride, map_bind]
  refine result_read_bind fun _ _ => result_read_bind fun _ _ => result_read_bind fun segments _ =>
    result_read_bind fun _ _ => ?_
  simp only [result_bind, result_read, result_descend]
  exact result_markBuilding n

end Agreement

section Answer

variable {α : Type} {w : Workspace}

/-- Work with a reply made of what it gives. -/
def answer (reply : α → Reply) (p : Edit α) : Edit Reply := do
  return reply (← p)

theorem Atomic.answer {p : Edit α} (hp : p.Atomic) (reply : α → Reply) :
    (p.answer reply).Atomic := by
  intro w fault w' h
  rw [Edit.answer, result_bind] at h
  cases hr : p.result w with
  | mk r w'' =>
    rw [hr] at h
    cases r with
    | ok a => cases h
    | error e =>
      cases h
      exact hp w fault w' hr

private theorem result_answer {p : Edit α} {made : Except Fault (Workspace × α)}
    (hp : p.result w = settled w made) (reply : α → Reply)
    (events : Workspace → α → List Event) :
    (p.answer reply).result w =
      ((w.outcomeOf made reply events).reply, (w.outcomeOf made reply events).workspace) := by
  rw [answer, result_bind, hp]
  cases made <;> rfl

end Answer

end Edit

namespace Call

/-- A request to declare or to change something, told check by check and write by write. -/
def edit? : Call → Option (Edit Reply)
  | .createStack app name => some ((Edit.createStack app name).answer .node)
  | .addConstruct parent id => some ((Edit.link parent id {} []).answer .node)
  | .addBlock parent kind typeTag id properties =>
      some ((Edit.addBlock parent kind typeTag id properties).answer .node)
  | .addOutput parent id value description sensitive =>
      some ((Edit.addOutput parent id value description sensitive).answer .node)
  | .setProperty node key value => some ((Edit.setProperty node key value).answer fun _ => .done)
  | .addOverride node path value => some ((Edit.addOverride node path value).answer fun _ => .done)
  | _ => none

/-- A request to declare or to change something is atomic work with a reply, and is performed as that
work comes out. -/
private theorem exists_work {call : Call} {edit : Edit Reply} (h : call.edit? = some edit)
    (w : Workspace) : ∃ (α : Type) (p : Edit α) (made : Except Fault (Workspace × α))
      (reply : α → Reply) (events : Workspace → α → List Event), edit = p.answer reply ∧
        p.Atomic ∧ p.result w = Edit.settled w made ∧
          w.perform call = w.outcomeOf made reply events := by
  cases call with
  | createStack app name =>
    cases h
    exact ⟨_, _, _, _, _, rfl, Edit.atomic_createStack app name,
      Edit.result_createStack app name, rfl⟩
  | addConstruct parent id =>
    cases h
    exact ⟨_, _, _, _, _, rfl, Edit.atomic_link parent id {} [],
      Edit.result_addConstruct parent id, rfl⟩
  | addBlock parent kind typeTag id properties =>
    cases h
    exact ⟨_, _, _, _, _, rfl, Edit.atomic_addBlock parent kind typeTag id properties,
      Edit.result_addBlock parent kind typeTag id properties, rfl⟩
  | addOutput parent id value description sensitive =>
    cases h
    exact ⟨_, _, _, _, _, rfl, Edit.atomic_addOutput parent id value description sensitive,
      Edit.result_addOutput parent id value description sensitive, rfl⟩
  | setProperty node key value =>
    cases h
    exact ⟨_, _, _, _, _, rfl, Edit.atomic_setProperty node key value,
      Edit.result_setProperty node key value, rfl⟩
  | addOverride node path value =>
    cases h
    exact ⟨_, _, _, _, _, rfl, Edit.atomic_addOverride node path value,
      Edit.result_addOverride node path value, rfl⟩
  | _ => cases h

/-- No request to declare or to change something ends in a fault after it wrote. -/
theorem atomic_edit {call : Call} {edit : Edit Reply} (h : call.edit? = some edit) :
    edit.Atomic := by
  intro w
  obtain ⟨α, p, made, reply, events, rfl, hp, -, -⟩ := exists_work h w
  exact hp.answer reply w

/-- Told write by write, a request comes to what is performed. -/
theorem result_edit {call : Call} {edit : Edit Reply} (h : call.edit? = some edit)
    (w : Workspace) : edit.result w = ((w.perform call).reply, (w.perform call).workspace) := by
  obtain ⟨α, p, made, reply, events, rfl, -, hresult, hperform⟩ := exists_work h w
  rw [hperform]
  exact Edit.result_answer hresult reply events

private theorem outcomeOf_eq_refused {α : Type} {w : Workspace}
    {made : Except Fault (Workspace × α)} {reply : α → Reply}
    {events : Workspace → α → List Event} {fault : Fault}
    (h : (w.outcomeOf made reply events).reply = .error fault) :
    w.outcomeOf made reply events = w.refused fault := by
  cases made with
  | error e =>
    cases h
    rfl
  | ok r => cases h

/-- Nothing is noted of a request to declare or to change something that is refused. -/
private theorem perform_eq_refused {call : Call} {edit : Edit Reply} (h : call.edit? = some edit)
    {w : Workspace} {fault : Fault} (hfault : (w.perform call).reply = .error fault) :
    w.perform call = w.refused fault := by
  obtain ⟨α, p, made, reply, events, -, -, -, hperform⟩ := exists_work h w
  rw [hperform] at hfault ⊢
  exact outcomeOf_eq_refused hfault

end Call

namespace Session

/-- A request to declare or to change something that is refused has written nothing, told write by
write: the session is as it was, and it may as well not have been asked. -/
theorem perform_refused (s : Session) {call : Call} {edit : Edit Reply}
    (h : call.edit? = some edit) :
    edit.result s.workspace =
        ((s.workspace.perform call).reply, (s.workspace.perform call).workspace) ∧
      ∀ fault w', edit.result s.workspace = (.error fault, w') →
        w' = s.workspace ∧ (perform call).run.run s = (.error (.ofFault fault), s) ∧
          ∀ calls, s.workspace.run (call :: calls) = s.workspace.run calls := by
  have hresult := Call.result_edit h s.workspace
  refine ⟨hresult, fun fault w' hfault => ?_⟩
  have hw' : w' = s.workspace := Call.atomic_edit h s.workspace fault w' hfault
  rw [hresult] at hfault
  have hrefused := Call.perform_eq_refused h (Prod.mk.inj hfault).1
  refine ⟨hw', ?_, fun calls => by rw [Workspace.run_cons, hrefused, Workspace.refused]⟩
  have hrun : (perform call).run.run s =
      (orFail .ofFault (s.workspace.perform call).reply).run.run
        { s with
          workspace := (s.workspace.perform call).workspace
          events := s.events ++ (s.workspace.perform call).events } := rfl
  rw [hrun, hrefused, Workspace.refused, List.append_nil]
  rfl

/-- A group under an id that is taken is refused write by write, and leaves the session as it was. -/
theorem perform_refused_group :
    ∃ s fault, s.workspace = Workspace.run {} (Workspace.refusedCalls.take 4) ∧
      (Edit.result ((Edit.link 0 (.text "main") {} []).answer .node) s.workspace).1 = .error fault ∧
      (perform (.addConstruct 0 (.text "main"))).run.run s = (.error (.ofFault fault), s) := by
  let s : Session :=
    { environment := ⟨"/", []⟩
      workspace := Workspace.run {} (Workspace.refusedCalls.take 4) }
  have hrefused : (((Edit.link 0 (.text "main") {} []).answer .node).result s.workspace).1.isOk =
      false := by decide +kernel
  cases hr : ((Edit.link 0 (.text "main") {} []).answer .node).result s.workspace with
  | mk r w' =>
    rw [hr] at hrefused
    cases r with
    | ok reply => cases hrefused
    | error fault =>
      have hedit : (Call.addConstruct 0 (.text "main")).edit? =
          some ((Edit.link 0 (.text "main") {} []).answer .node) := rfl
      obtain ⟨-, hs⟩ := perform_refused s hedit
      exact ⟨s, fault, rfl, by rw [hr], (hs fault w' hr).2.1⟩

end Session

end Groundplan
