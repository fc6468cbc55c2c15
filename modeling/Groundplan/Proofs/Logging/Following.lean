import Groundplan.Logging.Root

/-!
# Logging without a queue

Logging is set up, takes records and is stopped in any order, and its listener lags behind for as
long as it likes. A logger without a queue, which writes each record that is severe enough at once,
is what the root logger follows: at every time the root logger has one handler of its own if a
listener is active and none if not, and what waits in its queue is all that has not been written
yet.
-/

namespace Groundplan.Logging

/-- What can happen to logging. The level that it is set up with may be given as anything; the
listener writes the record that has waited longest whenever it comes to it. -/
inductive Action where
  | configure (level : Datum) (settings : LogSettings) (force : Bool)
  | log (record : Record)
  | shutDown
  | deliver

/-- Settings with the level that is given. -/
def LogSettings.withLevel (s : LogSettings) (level : Datum) : LogSettings :=
  { s with level := parseLevel level }

/-- The listener writes the record that has waited longest, if one waits. -/
def Root.deliver (root : Root) (env : Environment) (o : Outlets) : Root × Outlets :=
  match root.listener with
  | none => (root, o)
  | some l =>
      match root.queued l.queue with
      | [] => (root, o)
      | r :: rest => ({ root with queues := root.queues.set l.queue rest }, l.write env o r)

/-- The root logger, and what was written so far. -/
structure State where
  root : Root
  outlets : Outlets

namespace State

/-- What an action leads to. -/
def step (env : Environment) (s : State) : Action → State
  | .configure level settings force =>
      let (root, o, _) := s.root.configure env (settings.withLevel level) force s.outlets
      ⟨root, o⟩
  | .log r =>
      let (root, o) := s.root.log s.outlets r
      ⟨root, o⟩
  | .shutDown =>
      let (root, o) := s.root.shutDown env s.outlets
      ⟨root, o⟩
  | .deliver =>
      let (root, o) := s.root.deliver env s.outlets
      ⟨root, o⟩

/-- What actions lead to, one after the other. -/
def run (env : Environment) (s : State) (actions : List Action) : State :=
  actions.foldl (step env) s

/-- A root logger with handlers of others only. -/
def start (level : Int) (foreign : List Nat) (o : Outlets) : State :=
  ⟨{ level := level, handlers := foreign.map .foreign }, o⟩

end State

/-- Writes records to sinks, one after the other. -/
def Outlets.writeAll (o : Outlets) (env : Environment) (lines : List (Sink × Record)) : Outlets :=
  lines.foldl (fun o line => line.1.write env o line.2) o

/-- Logging without a queue: the sinks that are open, and each record that was written with each sink
that it was written to. -/
structure Prompt where
  level : Int
  isConfigured : Bool := false
  sinks : List Sink := []
  foreign : List Nat
  written : List (Sink × Record) := []
  outlets : Outlets

namespace Prompt

/-- A record that reaches the level is written once to each sink that is open. Without any, and
without handlers of others, it goes beside the log if it is severe. -/
def log (p : Prompt) (env : Environment) (r : Record) : Prompt :=
  if r.level < p.level then p
  else if p.sinks.isEmpty then
    if p.foreign.isEmpty && Severity.warning.level ≤ r.level then
      { p with outlets := p.outlets.warn (r.message ++ "\n") }
    else p
  else
    let lines := p.sinks.map fun s => (s, r)
    { p with written := p.written ++ lines, outlets := p.outlets.writeAll env lines }

/-- Opens the sinks that settings ask for, and no others. -/
def configure (p : Prompt) (env : Environment) (s : LogSettings) (force : Bool) : Prompt :=
  if p.isConfigured && !force then p
  else
    match Root.openSinks env s p.outlets with
    | (o, .error _) => { p with level := s.level, sinks := [], outlets := o }
    | (o, .ok sinks) =>
        { p with level := s.level, isConfigured := true, sinks := sinks, outlets := o }

/-- What an action leads to; nothing is left to be delivered. -/
def step (env : Environment) (p : Prompt) : Action → Prompt
  | .configure level settings force => p.configure env (settings.withLevel level) force
  | .log r => p.log env r
  | .shutDown => { p with isConfigured := false, sinks := [] }
  | .deliver => p

/-- What actions lead to, one after the other. -/
def run (env : Environment) (p : Prompt) (actions : List Action) : Prompt :=
  actions.foldl (step env) p

/-- Logging that is not set up. -/
def start (level : Int) (foreign : List Nat) (o : Outlets) : Prompt :=
  { level := level, foreign := foreign, outlets := o }

section configure

variable {p : Prompt} {env : Environment} {s : LogSettings} {force : Bool} {o : Outlets}

theorem configure_of_opened {sinks : List Sink} (hnew : ¬ (p.isConfigured && !force) = true)
    (hopen : Root.openSinks env s p.outlets = (o, .ok sinks)) :
    p.configure env s force =
      { p with level := s.level, isConfigured := true, sinks := sinks, outlets := o } := by
  rw [configure, if_neg hnew, hopen]

theorem configure_of_refused {e : FileError} (hnew : ¬ (p.isConfigured && !force) = true)
    (hopen : Root.openSinks env s p.outlets = (o, .error e)) :
    p.configure env s force = { p with level := s.level, sinks := [], outlets := o } := by
  rw [configure, if_neg hnew, hopen]

end configure

end Prompt

/-- Whatever is given for a level, it stands for a positive one. -/
theorem parseLevel_pos (level : Datum) : 0 < parseLevel level := by
  have hlevels : ∀ l ∈ Settings.levels, 0 < l.2 := by decide
  unfold parseLevel
  dsimp only
  cases hfound : Settings.levels.find? fun l =>
      l.1 == (level.text?.map fun s => Text.capitals (Text.strip s)).getD "" with
  | none => decide
  | some l => exact hlevels l (List.mem_of_find?_eq_some hfound)

section Handlers

variable (root : Root) (r : Record)

/-- Only the handlers of its own put a record into a queue. -/
private theorem foldl_take (queues : List (List Record)) :
    root.handlers.foldl (Handler.take r) queues = root.ownHandlers.foldl (Handler.take r) queues := by
  have htake : Handler.take r = fun queues handler =>
      if handler.isOwn then Handler.take r queues handler else queues := by
    funext queues handler
    cases handler <;> rfl
  rw [Root.ownHandlers, List.foldl_filter, ← htake]

/-- The handlers that others have installed. -/
def Root.others (root : Root) : List Handler := root.handlers.filter fun h => !h.isOwn

/-- Without handlers of its own, all that there are are those of others. -/
theorem Root.others_eq_handlers (h : root.ownHandlers = []) : root.others = root.handlers := by
  rw [ownHandlers, List.filter_eq_nil_iff] at h
  rw [others, List.filter_eq_self]
  intro handler hmem
  rw [Bool.eq_false_iff.mpr (h handler hmem), Bool.not_false]

theorem Root.isEnabled_iff {level : Int} :
    root.isEnabled level = true ↔ 0 < level ∧ root.level ≤ level := by
  rw [isEnabled, Bool.and_eq_true, decide_eq_true_iff, decide_eq_true_iff]

theorem Root.log_of_disabled (o : Outlets) (h : ¬ root.isEnabled r.level = true) :
    root.log o r = (root, o) := by
  rw [log, if_pos]
  simpa using h

theorem Root.log_of_enabled (o : Outlets) (h : root.isEnabled r.level = true) :
    root.log o r = ({ root with queues := root.ownHandlers.foldl (Handler.take r) root.queues },
      if root.handlers.isEmpty && Severity.warning.level ≤ r.level then o.warn (r.message ++ "\n")
      else o) := by
  rw [log, h, foldl_take]
  rfl

theorem Root.ownHandlers_removeOwn : root.removeOwn.ownHandlers = [] := by
  rw [ownHandlers, removeOwn, List.filter_filter, List.filter_eq_nil_iff]
  simp

theorem Root.others_removeOwn : root.removeOwn.others = root.others := by
  rw [others, removeOwn, List.filter_filter]
  simp [others]

end Handlers

section stopListener

variable (root : Root) (env : Environment) (o : Outlets)

@[simp] private theorem level_stopListener : (root.stopListener env o).1.level = root.level := by
  unfold Root.stopListener
  split <;> rfl

@[simp] private theorem isConfigured_stopListener :
    (root.stopListener env o).1.isConfigured = root.isConfigured := by
  unfold Root.stopListener
  split <;> rfl

@[simp] private theorem handlers_stopListener :
    (root.stopListener env o).1.handlers = root.handlers := by
  unfold Root.stopListener
  split <;> rfl

@[simp] theorem listener_stopListener : (root.stopListener env o).1.listener = none := by
  unfold Root.stopListener
  split
  · assumption
  · rfl

end stopListener

/-- A listener is active on the sinks that are open, its queue is filled by the one handler of the
root logger's own, and what waits there is all that has not been written yet. -/
structure Active (env : Environment) (s : State) (p : Prompt) (l : Listener) : Prop where
  listener_eq : s.root.listener = some l
  ownHandlers_eq : s.root.ownHandlers = [.own l.queue]
  queue_lt : l.queue < s.root.queues.length
  sinks_eq : l.sinks = p.sinks
  sinks_ne_nil : l.sinks ≠ []
  level_eq : l.level = s.root.level
  level_pos : 0 < s.root.level
  pending : (s.root.queued l.queue).foldl (l.write env) s.outlets = p.outlets

/-- No listener is active and there is no handler of the root logger's own; no sink is open and
nothing waits. -/
structure Idle (s : State) (p : Prompt) : Prop where
  listener_eq : s.root.listener = none
  ownHandlers_eq : s.root.ownHandlers = []
  sinks_eq : p.sinks = []
  outlets_eq : s.outlets = p.outlets

/-- The root logger is where logging without a queue is, but for what waits in its queue. -/
structure Follows (env : Environment) (s : State) (p : Prompt) : Prop where
  level_eq : s.root.level = p.level
  isConfigured_eq : s.root.isConfigured = p.isConfigured
  others_eq : s.root.others = p.foreign.map .foreign
  attached : Idle s p ∨ s.root.isConfigured = true ∧ ∃ l, Active env s p l

namespace Follows

variable {env : Environment} {s : State} {p : Prompt}

/-- Stopping the listener writes what has not been written yet. -/
theorem outlets_stopListener (h : Follows env s p) :
    (s.root.stopListener env s.outlets).2 = p.outlets := by
  unfold Root.stopListener
  rcases h.attached with hidle | ⟨-, l, hactive⟩
  · rw [hidle.listener_eq]
    exact hidle.outlets_eq
  · rw [hactive.listener_eq]
    exact hactive.pending

theorem shutDown (h : Follows env s p) :
    Follows env (s.step env .shutDown) (p.step env .shutDown) where
  level_eq := (level_stopListener ..).trans h.level_eq
  isConfigured_eq := rfl
  others_eq := by
    have hothers : (s.root.stopListener env s.outlets).1.others = s.root.others := by
      rw [Root.others, handlers_stopListener]
      rfl
    exact (Root.others_removeOwn _).trans (hothers.trans h.others_eq)
  attached := .inl ⟨listener_stopListener .., Root.ownHandlers_removeOwn _, rfl,
    h.outlets_stopListener⟩

/-- A configuration that finds the logger set up and is not forced changes nothing. -/
theorem configure_of_isConfigured (hc : s.root.isConfigured = true) (level : Datum)
    (settings : LogSettings) : s.step env (.configure level settings false) = s := by
  rw [State.step, Root.configure, hc]
  rfl

/-- Sinks that were opened get a listener with a new queue and a handler that fills it. -/
private theorem active_of_open {root : Root} {o : Outlets} {sinks : List Sink}
    (hown : root.ownHandlers = []) (hpos : 0 < root.level) (hsinks : sinks = p.sinks)
    (hne : sinks ≠ []) (houtlets : o = p.outlets) :
    Active env ⟨{ root with
        isConfigured := true
        handlers := root.handlers ++ [.own root.queues.length]
        listener := some ⟨root.queues.length, root.level, sinks⟩
        queues := root.queues ++ [[]] }, o⟩ p ⟨root.queues.length, root.level, sinks⟩ where
  listener_eq := rfl
  ownHandlers_eq := by
    rw [Root.ownHandlers] at hown ⊢
    rw [List.filter_append, hown]
    rfl
  queue_lt := by simp
  sinks_eq := hsinks
  sinks_ne_nil := hne
  level_eq := rfl
  level_pos := hpos
  pending := by
    have hempty : (root.queues ++ [[]]).getD root.queues.length [] = [] := by simp
    rw [Root.queued, hempty]
    exact houtlets

/-- Whatever the level, taking all of its own away leaves the root logger with nothing to write. -/
theorem detach (h : Follows env s p) (level : Int) :
    ∃ root, { s.root with level := level }.removeOwn.stopListener env s.outlets =
        (root, p.outlets) ∧ root.level = level ∧ root.isConfigured = p.isConfigured ∧
      root.others = p.foreign.map .foreign ∧ root.ownHandlers = [] ∧ root.listener = none := by
  have houtlets : ({ s.root with level := level }.removeOwn.stopListener env s.outlets).2 =
      p.outlets := by
    rw [← h.outlets_stopListener, Root.stopListener, Root.stopListener, Root.removeOwn]
    cases s.root.listener <;> rfl
  refine ⟨_, Prod.ext rfl houtlets, level_stopListener .., ?_, ?_, ?_, listener_stopListener ..⟩
  · rw [isConfigured_stopListener]
    exact h.isConfigured_eq
  · rw [Root.others, handlers_stopListener]
    exact (Root.others_removeOwn _).trans h.others_eq
  · rw [Root.ownHandlers, handlers_stopListener]
    exact Root.ownHandlers_removeOwn _

theorem configure (h : Follows env s p) (level : Datum) (settings : LogSettings) (force : Bool) :
    Follows env (s.step env (.configure level settings force))
      (p.step env (.configure level settings force)) := by
  have hpos : 0 < (settings.withLevel level).level := parseLevel_pos level
  rw [State.step, Prompt.step, Root.configure, Prompt.configure]
  generalize settings.withLevel level = settings at hpos
  have hkept : (s.root.isConfigured && !force) = (p.isConfigured && !force) := by
    rw [h.isConfigured_eq]
  by_cases hkeep : (p.isConfigured && !force) = true
  · rw [if_pos (hkept ▸ hkeep), if_pos hkeep]
    exact h
  · obtain ⟨root, hdetach, hlevel, hconfigured, hothers, hown, hlistener⟩ := h.detach settings.level
    rw [if_neg (hkept ▸ hkeep), if_neg hkeep, hdetach]
    dsimp only
    obtain ⟨o, opened⟩ := Root.openSinks env settings p.outlets
    cases opened with
    | error e => exact ⟨hlevel, hconfigured, hothers, .inl ⟨hlistener, hown, rfl, rfl⟩⟩
    | ok sinks =>
      cases sinks with
      | nil => exact ⟨hlevel, rfl, hothers, .inl ⟨hlistener, hown, rfl, rfl⟩⟩
      | cons sink sinks =>
        rw [← hlevel] at hpos ⊢
        refine ⟨rfl, rfl, ?_, .inr ⟨rfl, ⟨root.queues.length, root.level, sink :: sinks⟩, ?_⟩⟩
        · rw [← hothers]
          simp [Root.others, Handler.isOwn]
        · exact active_of_open hown hpos rfl (List.cons_ne_nil _ _) rfl

theorem deliver (h : Follows env s p) :
    Follows env (s.step env .deliver) (p.step env .deliver) := by
  rw [State.step, Root.deliver]
  rcases h.attached with hidle | ⟨hconfigured, l, hactive⟩
  · rw [hidle.listener_eq]
    exact h
  · rw [hactive.listener_eq]
    dsimp only
    cases hqueued : s.root.queued l.queue with
    | nil => exact h
    | cons r rest =>
      dsimp only
      refine ⟨h.level_eq, h.isConfigured_eq, h.others_eq, .inr ⟨hconfigured, l, ?_⟩⟩
      have hpending := hactive.pending
      rw [hqueued, List.foldl_cons] at hpending
      have hrest : (s.root.queues.set l.queue rest).getD l.queue [] = rest := by
        simp [hactive.queue_lt]
      refine ⟨rfl, hactive.ownHandlers_eq, ?_, hactive.sinks_eq, hactive.sinks_ne_nil,
        hactive.level_eq, hactive.level_pos, ?_⟩
      · simpa using hactive.queue_lt
      · rw [Root.queued, hrest]
        exact hpending

/-- Without a listener a record leaves the root logger as it is. -/
private theorem log_of_idle (h : Follows env s p) (hidle : Idle s p) (r : Record) :
    s.root.log s.outlets r = (s.root, (p.log env r).outlets) := by
  have hempty : s.root.handlers.isEmpty = p.foreign.isEmpty := by
    rw [← s.root.others_eq_handlers hidle.ownHandlers_eq, h.others_eq, List.isEmpty_map]
  have hprompt : (p.log env r).outlets =
      if r.level < p.level then p.outlets
      else if p.foreign.isEmpty && Severity.warning.level ≤ r.level then
        p.outlets.warn (r.message ++ "\n")
      else p.outlets := by
    rw [Prompt.log, hidle.sinks_eq, List.isEmpty_nil, if_pos rfl]
    split
    · rfl
    · split <;> rfl
  rw [hprompt]
  by_cases henabled : s.root.isEnabled r.level = true
  · have hlevel : ¬ r.level < p.level := by
      rw [s.root.isEnabled_iff, h.level_eq] at henabled
      omega
    rw [s.root.log_of_enabled r _ henabled, hidle.ownHandlers_eq, if_neg hlevel, hempty,
      hidle.outlets_eq]
    rfl
  · rw [s.root.log_of_disabled r _ henabled, hidle.outlets_eq]
    split
    · rfl
    · next hlevel =>
      -- a record of no positive level reaches a level that is not positive, but is not severe
      have hmild : ¬ Severity.warning.level ≤ r.level := by
        have hwarning : 0 < Severity.warning.level := by decide
        rw [s.root.isEnabled_iff, h.level_eq] at henabled
        omega
      rw [decide_eq_false hmild, Bool.and_false, if_neg Bool.false_ne_true]

/-- With a listener a record that reaches the level is taken into its queue. -/
private theorem active_log (h : Follows env s p) {l : Listener} (hactive : Active env s p l)
    (r : Record) (hlevel : ¬ r.level < p.level) :
    ∃ queues, s.root.log s.outlets r = ({ s.root with queues := queues }, s.outlets) ∧
      Active env ⟨{ s.root with queues := queues }, s.outlets⟩ (p.log env r) l := by
  have henabled : s.root.isEnabled r.level = true := by
    have hpos := hactive.level_pos
    rw [h.level_eq] at hpos
    rw [s.root.isEnabled_iff, h.level_eq]
    omega
  have hhandlers : s.root.handlers.isEmpty = false := by
    have hmem : Handler.own l.queue ∈ s.root.ownHandlers := by simp [hactive.ownHandlers_eq]
    rw [List.isEmpty_eq_false_iff_exists_mem]
    exact ⟨_, (List.mem_filter.mp hmem).1⟩
  have hsinks : p.sinks.isEmpty = false := by
    rw [← hactive.sinks_eq, List.isEmpty_eq_false_iff]
    exact hactive.sinks_ne_nil
  have hprompt : p.log env r =
      { p with
        written := p.written ++ p.sinks.map fun s => (s, r)
        outlets := p.outlets.writeAll env (p.sinks.map fun s => (s, r)) } := by
    rw [Prompt.log, if_neg hlevel, hsinks, if_neg Bool.false_ne_true]
  have hqueued : (s.root.queues.modify l.queue (· ++ [r])).getD l.queue [] =
      s.root.queued l.queue ++ [r] := by
    simp [Root.queued, hactive.queue_lt]
  refine ⟨s.root.queues.modify l.queue (· ++ [r]), ?_, hactive.listener_eq, hactive.ownHandlers_eq,
    ?_, ?_, hactive.sinks_ne_nil, hactive.level_eq, hactive.level_pos, ?_⟩
  · rw [s.root.log_of_enabled r _ henabled, hactive.ownHandlers_eq, hhandlers]
    rfl
  · simpa using hactive.queue_lt
  · rw [hprompt]
    exact hactive.sinks_eq
  · rw [Root.queued, hqueued, List.foldl_append, hactive.pending, hprompt, List.foldl_cons,
      List.foldl_nil, Listener.write, if_pos, Outlets.writeAll, List.foldl_map, hactive.sinks_eq]
    rw [hactive.level_eq, h.level_eq]
    omega

theorem log (h : Follows env s p) (r : Record) :
    Follows env (s.step env (.log r)) (p.step env (.log r)) := by
  have hkept : (p.log env r).level = p.level ∧ (p.log env r).isConfigured = p.isConfigured ∧
      (p.log env r).foreign = p.foreign ∧ (p.log env r).sinks = p.sinks := by
    unfold Prompt.log
    split
    · exact ⟨rfl, rfl, rfl, rfl⟩
    · split
      · split <;> exact ⟨rfl, rfl, rfl, rfl⟩
      · exact ⟨rfl, rfl, rfl, rfl⟩
  obtain ⟨hlevel, hconfigured, hforeign, hsinks⟩ := hkept
  rw [State.step, Prompt.step]
  rcases h.attached with hidle | ⟨hset, l, hactive⟩
  · rw [h.log_of_idle hidle r]
    refine ⟨h.level_eq.trans hlevel.symm, h.isConfigured_eq.trans hconfigured.symm, ?_, .inl ?_⟩
    · rw [hforeign]
      exact h.others_eq
    · exact ⟨hidle.listener_eq, hidle.ownHandlers_eq, hsinks.trans hidle.sinks_eq, rfl⟩
  · by_cases hreaches : r.level < p.level
    · have hdisabled : ¬ s.root.isEnabled r.level = true := by
        rw [s.root.isEnabled_iff, h.level_eq]
        omega
      have hprompt : p.log env r = p := if_pos hreaches
      rw [s.root.log_of_disabled r _ hdisabled, hprompt]
      exact h
    · obtain ⟨queues, hlog, hactive⟩ := h.active_log hactive r hreaches
      rw [hlog]
      refine ⟨h.level_eq.trans hlevel.symm, h.isConfigured_eq.trans hconfigured.symm, ?_,
        .inr ⟨hset, l, hactive⟩⟩
      rw [hforeign]
      exact h.others_eq

/-- However far the listener lags behind, the root logger follows logging without a queue. -/
theorem step (h : Follows env s p) (action : Action) :
    Follows env (s.step env action) (p.step env action) := by
  cases action with
  | configure level settings force => exact h.configure level settings force
  | log r => exact h.log r
  | shutDown => exact h.shutDown
  | deliver => exact h.deliver

theorem run (h : Follows env s p) (actions : List Action) :
    Follows env (s.run env actions) (p.run env actions) := by
  induction actions generalizing s p with
  | nil => exact h
  | cons action actions ih => exact ih (h.step action)

theorem start (env : Environment) (level : Int) (foreign : List Nat) (o : Outlets) :
    Follows env (State.start level foreign o) (Prompt.start level foreign o) where
  level_eq := rfl
  isConfigured_eq := rfl
  others_eq := by simp [State.start, Prompt.start, Root.others, Handler.isOwn]
  attached := .inl ⟨rfl, by simp [State.start, Root.ownHandlers, Handler.isOwn], rfl, rfl⟩

/-- There is a handler of its own for an active listener, and none without. -/
theorem length_ownHandlers (h : Follows env s p) :
    s.root.ownHandlers.length = if s.root.listener.isSome then 1 else 0 := by
  rcases h.attached with hidle | ⟨-, l, hactive⟩
  · rw [hidle.ownHandlers_eq, hidle.listener_eq]
    rfl
  · rw [hactive.ownHandlers_eq, hactive.listener_eq]
    rfl

/-- The listener writes to the sinks that are open. -/
theorem sinks_eq (h : Follows env s p) : (s.root.listener.map Listener.sinks).getD [] = p.sinks := by
  rcases h.attached with hidle | ⟨-, l, hactive⟩
  · rw [hidle.listener_eq, hidle.sinks_eq]
    rfl
  · rw [hactive.listener_eq]
    exact hactive.sinks_eq

end Follows

end Groundplan.Logging
