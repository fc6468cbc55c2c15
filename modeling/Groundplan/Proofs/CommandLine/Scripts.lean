import Groundplan.Proofs.CommandLine.Running
import Groundplan.Proofs.Synthesis.Apps

/-!
# Builders

A builder that asks the workspace for one thing after the other is told by a script. What it asks
for may depend on all replies so far, refusals included, and it may stop with a failure of its own.
A script touches nothing but the workspace, and it either populates an app or ends in a failure;
then the stacks of the app either all become documents, or none does.
-/

namespace Groundplan

/-- What is asked of a workspace, one request after the other, each by the reply to the one before. -/
inductive Script where
  | done
  | fail (failure : Failure)
  | ask (call : Call) (next : Except Fault Reply → Script)

namespace Script

/-- A script as work on a session. Refusals are left to the script. -/
def work : Script → Work Unit
  | done => pure ()
  | fail failure => throw failure
  | ask call next => do (next (← Session.answer call)).work

/-- How a script ends in a workspace, and what it makes of it. -/
def run : Script → Workspace → Except Failure Unit × Workspace
  | done, w => (.ok (), w)
  | fail failure, w => (.error failure, w)
  | ask call next, w => (next (w.perform call).reply).run (w.perform call).workspace

/-- Each request of a script names only what is there when its turn comes. -/
def InScope : Script → Workspace → Prop
  | done, _ | fail _, _ => True
  | ask call next, w =>
      call.InScope w ∧ (next (w.perform call).reply).InScope (w.perform call).workspace

/-- A script that goes through a list of requests whatever the replies. -/
def ofCalls : List Call → Script
  | [] => done
  | call :: calls => ask call fun _ => ofCalls calls

variable {script : Script}

/-- Scripts lead on from what is reached. -/
theorem reached_run {w : Workspace} (hw : w.Reached) (hs : script.InScope w) :
    (script.run w).2.Reached := by
  induction script generalizing w with
  | done | fail => exact hw
  | ask call next ih => exact ih _ (.step hw call hs.1) hs.2

@[simp] theorem run_ofCalls (calls : List Call) (w : Workspace) :
    (ofCalls calls).run w = (.ok (), w.run calls) := by
  induction calls generalizing w with
  | nil => rfl
  | cons call calls ih => exact ih _

@[simp] theorem inScope_ofCalls {calls : List Call} {w : Workspace} :
    (ofCalls calls).InScope w ↔ Call.AllInScope w calls := by
  induction calls generalizing w with
  | nil => exact .rfl
  | cons call calls ih => exact and_congr_right fun _ => ih

/-- The work of a script is done in the workspace alone. -/
theorem goes_work (script : Script) (s : Session) : ∃ events,
    goes script.work s = ((script.run s.workspace).1,
      { s with workspace := (script.run s.workspace).2, events := events }) := by
  induction script generalizing s with
  | done | fail => exact ⟨s.events, rfl⟩
  | ask call next ih =>
    obtain ⟨events, hrest⟩ := ih (s.workspace.perform call).reply
      { s with
        workspace := (s.workspace.perform call).workspace
        events := s.events ++ (s.workspace.perform call).events }
    exact ⟨events, (goes_bind_of_ok (Session.goes_answer call s)).trans hrest⟩

end Script

namespace CommandLine

/-- How it turns out to have a script populate an app and to synthesise the stacks of that: with the
documents of all of them, or with a failure. -/
inductive Turnout (script : Script) (w : Workspace) (a : AppId) (emit : Bool) :
    Except Failure (List (String × Document)) → Prop
  | stopped {failure : Failure} (h : (script.run w).1 = .error failure) :
      Turnout script w a emit (.error failure)
  | refused (h : (script.run w).1 = .ok ()) {entry : String × NodeId}
      (he : entry ∈ ((script.run w).2.app a).registry)
      (hnone : ∀ made, ¬ (script.run w).2.Becomes emit entry made) (fault : Fault) :
      Turnout script w a emit (.error (.fault fault))
  | made (h : (script.run w).1 = .ok ()) {docs : List (String × Document)}
      (hdocs : List.Forall₂ ((script.run w).2.Becomes emit) ((script.run w).2.app a).registry docs) :
      Turnout script w a emit (.ok docs)

/-- A new app is reached from what is reached. -/
theorem reached_createApp {w w' : Workspace} {outdir : String} {a : AppId} (hw : w.Reached)
    (hcreate : w.createApp outdir = (w', a)) : w'.Reached := by
  have hstep := Workspace.Reached.step hw (.createApp outdir) trivial
  rwa [Workspace.perform, hcreate] at hstep

/-- The documents of an app are all made or none is, and files have no part in it. -/
theorem turnout_builtDocuments {settings : Settings} {script : AppId → Script} {s : Session}
    {w : Workspace} {a : AppId} (hw : s.workspace.Reached)
    (hcreate : s.workspace.createApp settings.outputDir = (w, a)) (hscope : (script a).InScope w) :
    ∃ result s', goes (Run.builtDocuments settings fun a => (script a).work) s = (result, s') ∧
      s'.files = s.files ∧ s'.environment = s.environment ∧
      Turnout (script a) w a settings.emitMetadata result := by
  have hperform : s.workspace.perform (.createApp settings.outputDir) = ⟨w, .ok (.app a), []⟩ := by
    rw [Workspace.perform, hcreate]
  have hreached := Script.reached_run (reached_createApp hw hcreate) hscope
  have hgoes := Session.goes_perform (.createApp settings.outputDir) s
  rw [hperform] at hgoes
  obtain ⟨events, hbuild⟩ := (script a).goes_work { s with workspace := w, events := s.events ++ [] }
  dsimp only at hbuild
  rw [Run.builtDocuments, goes_bind_of_ok hgoes]
  dsimp only
  cases hend : ((script a).run w).1 with
  | error failure =>
    rw [hend] at hbuild
    exact ⟨_, _, goes_bind_of_error hbuild, rfl, rfl, .stopped hend⟩
  | ok =>
    rw [hend] at hbuild
    rw [goes_bind_of_ok hbuild, goes_bind, Session.goes_perform]
    rcases hreached.synthesizeApp_cases a settings.emitMetadata with
      ⟨docs, hreply, hdocs⟩ | ⟨fault, hreply, hfault, entry, he, hnone⟩
    · simp only [hreply]
      exact ⟨_, _, rfl, rfl, rfl, .made hend hdocs⟩
    · have hfailure : Failure.ofFault fault = .fault fault := by
        rw [Failure.ofFault, hfault]
        rfl
      simp only [hreply, Except.mapError, hfailure]
      exact ⟨_, _, rfl, rfl, rfl, .refused hend he hnone fault⟩

end CommandLine

end Groundplan
