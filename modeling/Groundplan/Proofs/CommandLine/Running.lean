import Groundplan.CommandLine.Program
import Groundplan.Proofs.Json.Room

/-!
# How work goes

Work on a state gives an answer or ends in a failure, and leaves a state in either case. Each way of
putting work together goes as its parts go one after the other; the lemmas here say so for the work of
a session and for that of a run, so that what a command does can be told step by step.
-/

namespace Groundplan

section Sequence

variable {ε σ α β : Type}

/-- How work goes from a state: its answer or failure, and the state that it leaves. -/
def goes (x : ExceptT ε (StateM σ) α) (s : σ) : Except ε α × σ := StateT.run (ExceptT.run x) s

/-- Work goes on with the answer and the state of its first part, unless that fails. -/
theorem goes_bind (x : ExceptT ε (StateM σ) α) (f : α → ExceptT ε (StateM σ) β) (s : σ) :
    goes (x >>= f) s =
      match goes x s with
      | (.ok a, s') => goes (f a) s'
      | (.error e, s') => (.error e, s') := by
  unfold goes ExceptT.run StateT.run
  simp only [bind, ExceptT.bind, ExceptT.mk, StateT.bind, ExceptT.bindCont]
  cases x s with
  | mk r s' => cases r <;> rfl

variable {x : ExceptT ε (StateM σ) α} {f : α → ExceptT ε (StateM σ) β} {s s' : σ}

/-- After an answer, work goes on with the rest. -/
theorem goes_bind_of_ok {a : α} (h : goes x s = (.ok a, s')) :
    goes (x >>= f) s = goes (f a) s' := by
  rw [goes_bind, h]

/-- After a failure, work does not go on. -/
theorem goes_bind_of_error {e : ε} (h : goes x s = (.error e, s')) :
    goes (x >>= f) s = (.error e, s') := by
  rw [goes_bind, h]

/-- Work that gives an answer has come to one in its first part. -/
theorem goes_bind_eq_ok {b : β} (h : goes (x >>= f) s = (.ok b, s')) :
    ∃ a s₁, goes x s = (.ok a, s₁) ∧ goes (f a) s₁ = (.ok b, s') := by
  rw [goes_bind] at h
  cases hx : goes x s with
  | mk result s₁ =>
    rw [hx] at h
    cases result with
    | ok a => exact ⟨a, s₁, rfl, h⟩
    | error e => cases (Prod.mk.inj h).1

@[simp] theorem goes_get (s : σ) :
    goes (get : ExceptT ε (StateM σ) σ) s = (.ok s, s) := rfl

/-- A failure is handed to what catches it, in the state that it left. -/
theorem goes_tryCatch (x : ExceptT ε (StateM σ) α) (handle : ε → ExceptT ε (StateM σ) α) (s : σ) :
    goes (tryCatch x handle) s =
      match goes x s with
      | (.ok a, s') => (.ok a, s')
      | (.error e, s') => goes (handle e) s' := by
  unfold goes ExceptT.run StateT.run
  simp only [tryCatch, tryCatchThe, MonadExceptOf.tryCatch, ExceptT.tryCatch, ExceptT.mk, bind,
    StateT.bind]
  cases x s with
  | mk r s' => cases r <;> rfl

end Sequence

/-- Where there is always room, all that is given is loaded or at fault. -/
theorem Document.loadWithin_none (naming : Naming) (d : Datum) :
    loadWithin none naming d = .ok (load naming d) := by
  have hgiven (cause : Breakdown) : given none d ≠ .error (.breakdown cause) := by
    unfold given
    split
    · exact Json.read_ne_breakdown _ cause
    · exact Json.readBytes_ne_breakdown _ cause
    · exact nofun
  unfold loadWithin load
  split
  · next cause h => exact absurd h (hgiven cause)
  · rfl

namespace Session

variable {ε α : Type}

@[simp] theorem goes_orFail (failure : ε → Failure) (r : Except ε α) (s : Session) :
    goes (orFail failure r) s = (r.mapError failure, s) := by
  cases r <;> rfl

theorem goes_note (e : Event) (s : Session) :
    goes (note e) s = (.ok (), { s with events := s.events ++ [e] }) := rfl

/-- Work on the files leaves the rest of the session as it was. -/
theorem goes_withFiles (f : Environment → FileTree → FileTree × Except Failure α) (s : Session) :
    goes (withFiles f) s =
      ((f s.environment s.files).2, { s with files := (f s.environment s.files).1 }) := by
  have h : goes (withFiles f) s = goes (orFail id (f s.environment s.files).2)
      { s with files := (f s.environment s.files).1 } := rfl
  rw [h, goes_orFail]
  cases (f s.environment s.files).2 <;> rfl

/-- A request is answered by the workspace, refusals included. -/
theorem goes_answer (call : Call) (s : Session) :
    goes (answer call) s = (.ok (s.workspace.perform call).reply,
      { s with
        workspace := (s.workspace.perform call).workspace
        events := s.events ++ (s.workspace.perform call).events }) := rfl

/-- Where a request is refused, the work ends in a failure. -/
theorem goes_perform (call : Call) (s : Session) :
    goes (perform call) s =
      ((s.workspace.perform call).reply.mapError .ofFault,
        { s with
          workspace := (s.workspace.perform call).workspace
          events := s.events ++ (s.workspace.perform call).events }) := by
  rw [perform, goes_bind_of_ok (goes_answer call s), goes_orFail]

/-- A document is taken from what a value reads as, unless that is at fault, has a name for its
stack that cannot be made a text, or is beyond the limits. -/
theorem goes_loadDocumentWithin (limits : Limits) (v : Value) (s : Session) :
    (goes (loadDocumentWithin limits v) s).1 =
      match Document.loadWithin limits.reading s.workspace.naming (s.workspace.heap.datum v) with
      | .error cause => .error (.ofBreakdown cause)
      | .ok (.error fault) => .error (.fault (.document fault))
      | .ok (.ok doc) =>
          if Document.hasLongName (s.workspace.heap.datum v) then .error (.json .longNumeral)
          else if limits.freezing.allows doc.depth then .ok doc
          else .error (.ofBreakdown (.tooDeep .values)) := by
  unfold loadDocumentWithin
  dsimp only
  rw [goes_bind_of_ok (goes_get s), goes_bind, goes_orFail]
  cases Document.loadWithin limits.reading s.workspace.naming (s.workspace.heap.datum v) with
  | error cause => rfl
  | ok loaded =>
    dsimp only [Except.mapError]
    rw [goes_bind, goes_orFail]
    cases loaded with
    | error fault => rfl
    | ok doc =>
      dsimp only [Except.mapError]
      rw [goes_bind, goes_orFail]
      cases Document.hasLongName (s.workspace.heap.datum v) with
      | true => rfl
      | false => cases limits.freezing.allows doc.depth <;> rfl

/-- A document is taken from what a value reads as, unless that is at fault or has a name for its
stack that cannot be made a text. -/
theorem goes_loadDocument (v : Value) (s : Session) :
    (goes (loadDocument v) s).1 =
      match Document.load s.workspace.naming (s.workspace.heap.datum v) with
      | .error fault => .error (.fault (.document fault))
      | .ok doc =>
          if Document.hasLongName (s.workspace.heap.datum v) then .error (.json .longNumeral)
          else .ok doc := by
  have hloaded : (goes (loadDocument v) s).1 = _ := goes_loadDocumentWithin {} v s
  rw [hloaded, Document.loadWithin_none]
  cases Document.load s.workspace.naming (s.workspace.heap.datum v) <;> rfl

/-- A document is taken from a text, or the fault of the text is the failure. -/
theorem goes_loadDocument_text (text : String) (s : Session) :
    (goes (loadDocument (.text text)) s).1 =
      (Document.load s.workspace.naming (.text text)).mapError fun fault =>
        .fault (.document fault) := by
  have hdatum : s.workspace.heap.datum (.text text) = .text text := rfl
  rw [goes_loadDocument, hdatum]
  cases Document.load s.workspace.naming (.text text) <;> rfl

end Session

/-- A line that is logged waits: no file has it yet. -/
theorem Logging.Root.files_log (root : Root) (o : Outlets) (r : Record) :
    (root.log o r).2.files = o.files := by
  unfold log
  split
  · rfl
  · split <;> rfl

namespace CommandLine

/-- Logging leaves the session as it is. -/
theorem Execution.session_log (p : Execution) (e : Event) : (p.log e).session = p.session := by
  have hfiles := p.root.files_log p.outlets (.ofEvent e p.time)
  rw [log]
  simp only [withOutlets, hfiles]
  rfl

/-- A run after work on its session that left the session given: what was noted is logged. -/
def Execution.resumed (p : Execution) (s : Session) : Execution :=
  s.events.foldl Execution.log { p with session := { s with events := [] } }

/-- A run goes on in the session that work left. -/
theorem Execution.session_resumed (p : Execution) (s : Session) :
    (p.resumed s).session = { s with events := [] } := by
  have hfold (events : List Event) (q : Execution) :
      (events.foldl Execution.log q).session = q.session := by
    induction events generalizing q with
    | nil => rfl
    | cons e events ih => rw [List.foldl_cons, ih, session_log]
  exact hfold s.events _

namespace Run

variable {α : Type}

@[simp] theorem goes_report (e : Event) (p : Execution) : goes (report e) p = (.ok (), p.log e) := rfl

/-- Work on the session gives the answer or failure that it gives by itself. -/
theorem goes_work (w : Work α) (p : Execution) :
    goes (work w) p =
      ((goes w { p.session with events := [] }).1,
        p.resumed (goes w { p.session with events := [] }).2) := by
  unfold work
  rw [goes_bind_of_ok (goes_get p)]
  cases hgoes : goes w { p.session with events := [] } with
  | mk result s =>
    have hrun : w.run.run { p.session with events := [] } = (result, s) := hgoes
    simp only [hrun]
    cases result <;> rfl

/-- Faults of the domain are caught, and other failures go on. -/
theorem goes_orFault (r : Run α) (p : Execution) :
    goes (orFault r) p =
      (match (goes r p).1 with
        | .ok a => .ok (.ok a)
        | .error (.fault fault) => .ok (.error fault)
        | .error other => .error other, (goes r p).2) := by
  unfold orFault
  rw [goes_tryCatch, goes_bind]
  cases goes r p with
  | mk result p' =>
    cases result with
    | ok a => rfl
    | error failure => cases failure <;> rfl

/-- Giving up ends with the exit code for it. -/
theorem goes_giveUp (reason : String) (p : Execution) : (goes (giveUp reason) p).1 = .ok exitUsage :=
  rfl

/-- What has a JSON form is printed, and the reason why something has none is the failure. -/
theorem goes_printJson (layout : Json.Layout) (d : Datum) (p : Execution) :
    (goes (printJson layout d) p).1 = ((Json.print layout d).map fun _ => ()).mapError .json := by
  unfold printJson
  rw [goes_bind, goes_work]
  simp only [Session.goes_orFail]
  cases Json.print layout d <;> rfl

/-- What is writable is printed. -/
theorem goes_printJson_of_writable {d : Datum} (h : Json.Writable d) (layout : Json.Layout)
    (p : Execution) : ∃ p', goes (printJson layout d) p = (.ok (), p') := by
  obtain ⟨text, htext⟩ := h.print layout
  have hgoes := goes_printJson layout d p
  rw [htext] at hgoes
  exact ⟨_, Prod.ext hgoes rfl⟩

/-- Printing JSON leaves the session as it is but for events that are logged. -/
theorem session_printJson (layout : Json.Layout) (d : Datum) (p : Execution) :
    (goes (printJson layout d) p).2.session = { p.session with events := [] } := by
  unfold printJson
  rw [goes_bind, goes_work]
  simp only [Session.goes_orFail]
  cases Json.print layout d with
  | error e => exact Execution.session_resumed p _
  | ok text => exact Execution.session_resumed p _

end Run

end CommandLine

end Groundplan
