import ScriptTrace.Proofs.Calm
import ScriptTrace.Proofs.ScopeChain

/-!
# The steps of calls are brackets

A call leaves four steps in the trace: that it is prepared, that its frame is put on the stack, that
its scope is there, and that its frame is taken off.  The second and the last are brackets around
whatever the call does.  They carry numbers, the number of frames on the stack and the index of the
scope; this file shows that the numbers are those which a reader of the steps would count.

## The reader

`CallLog` is what such a reader keeps: how many calls have been entered, and which of them are open.
It never looks at the state of the run.  `Bracketed` says, for every place in a list of steps, what
a bracket at that place carries in terms of what the reader has kept before it.  A bracket that
opens also says something of its two neighbours.

## Why the numbers agree

While a run goes on, the open calls are the frames on the stack above that of the script, and the
calls so far are the scopes apart from that of the script (`Machine.TellsCalls`).  The agreement is
lost between the bracket that opens and the step that tells of the scope.  Nothing else is recorded
there, and a fault that is raised there stops the run.

* `Bracketed.append`: one more step.
* `Machine.TellsCalls`: the agreement, with a lemma for each of the two ends of a call.
* `runProgram_brackets_calls`: the brackets of a trace.
-/

namespace ScriptTrace

/-! ## Reading the steps -/

/-- What a reader of the steps keeps of the calls. -/
structure CallLog where
  /-- The number of calls entered. -/
  made : Nat := 0
  /-- The calls that are open, the innermost first: the name of each, and its number, counted from
  one in the order of the steps. -/
  opened : List (String × Nat) := []

namespace CallLog

/-- After one more step. -/
def read (log : CallLog) (s : Step) : CallLog :=
  match s.kind with
  | .createExecutionContext =>
    { made := log.made + 1
      opened := (((s.field? "name").bind Step.stringOf?).getD "", log.made + 1) :: log.opened }
  | .destroyExecutionContext => { log with opened := log.opened.tail }
  | _ => log

/-- After all steps of a list. -/
def ofSteps (steps : List Step) : CallLog :=
  steps.foldl read {}

/-- The number of the innermost open call, or zero if no call is open. -/
def innermost (log : CallLog) : Nat :=
  (log.opened.head?.map Prod.snd).getD 0

theorem ofSteps_append (steps : List Step) (s : Step) :
    ofSteps (steps ++ [s]) = (ofSteps steps).read s := by
  rw [ofSteps, List.foldl_append]
  rfl

end CallLog

/-- A step of a kind, with a name among its data. -/
structure Step.Names (s : Step) (kind : StepKind) (name : String) : Prop where
  kind_eq : s.kind = kind
  name_eq : s.field? "name" = some (.str name)

/-- The step that tells of the scope of a call. -/
structure Step.OpensScope (s : Step) (name : String) (scope outer : Nat) : Prop where
  names : s.Names .createLexicalEnvironment name
  scope_eq : s.field? "envId" = some (.nat scope)
  outer_eq : s.field? "outerEnvId" = some (.nat outer)

/-- The bracket that opens a call, between the step before it and the step after it, if there is
one. -/
def EntersCall (log : CallLog) (before : Option Step) (s : Step) (after : Option Step) : Prop :=
  ∃ name, s.Names .createExecutionContext name ∧
    s.field? "depth" = some (.nat (log.opened.length + 2)) ∧
    (∃ p ∈ before, p.Names .executeExpression name) ∧
    ∀ n ∈ after, n.OpensScope name (log.made + 1) log.innermost

/-- The bracket that closes the innermost open call. -/
def LeavesCall (log : CallLog) (s : Step) : Prop :=
  ∃ name number rest, log.opened = (name, number) :: rest ∧
    s.Names .destroyExecutionContext name ∧ s.field? "depth" = some (.nat (rest.length + 1))

/-- Every bracket carries what a reader of the steps before it expects. -/
structure Bracketed (steps : List Step) : Prop where
  enters : ∀ {before s after}, steps = before ++ s :: after → s.kind = .createExecutionContext →
    EntersCall (.ofSteps before) before.getLast? s after.head?
  leaves : ∀ {before s after}, steps = before ++ s :: after → s.kind = .destroyExecutionContext →
    LeavesCall (.ofSteps before) s

/-- A place in a list with one more item is a place in the list, or the new one. -/
theorem place_of_concat {α : Type} {xs before after : List α} {x y : α}
    (h : xs ++ [x] = before ++ y :: after) :
    (xs = before ∧ x = y ∧ after = []) ∨
      ∃ rest, after = rest ++ [x] ∧ xs = before ++ y :: rest := by
  rcases List.eq_nil_or_concat after with rfl | ⟨rest, z, rfl⟩
  · obtain ⟨rfl, last⟩ := List.append_inj' h rfl
    exact Or.inl ⟨rfl, List.singleton_inj.mp last, rfl⟩
  · have regrouped : xs ++ [x] = (before ++ y :: rest) ++ [z] := by simpa using h
    obtain ⟨rfl, last⟩ := List.append_inj' regrouped rfl
    obtain rfl : x = z := List.singleton_inj.mp last
    exact Or.inr ⟨rest, List.concat_eq_append, rfl⟩

namespace Bracketed

theorem nil : Bracketed [] where
  enters h := by simp at h
  leaves h := by simp at h

/-- **One more step.**  If it is a bracket, it has to carry what the reader expects; and after a
bracket that opens a call it has to tell of the scope. -/
theorem append {steps : List Step} (h : Bracketed steps) {s : Step}
    (follows : ∀ before last name, steps = before ++ [last] →
      last.Names .createExecutionContext name →
        s.OpensScope name ((CallLog.ofSteps before).made + 1) (CallLog.ofSteps before).innermost)
    (enters : s.kind = .createExecutionContext →
      EntersCall (.ofSteps steps) steps.getLast? s none)
    (leaves : s.kind = .destroyExecutionContext → LeavesCall (.ofSteps steps) s) :
    Bracketed (steps ++ [s]) where
  enters := by
    intro before t after place opens
    rcases place_of_concat place with ⟨rfl, rfl, rfl⟩ | ⟨rest, rfl, earlier⟩
    · exact enters opens
    · obtain ⟨name, names, depth, previous, next⟩ := h.enters earlier opens
      refine ⟨name, names, depth, previous, fun n hn => ?_⟩
      cases rest with
      | nil =>
        obtain rfl : s = n := by simpa using hn
        exact follows before t name earlier names
      | cons r rest => exact next n hn
  leaves := by
    intro before t after place closes
    rcases place_of_concat place with ⟨rfl, rfl, -⟩ | ⟨rest, -, earlier⟩
    · exact leaves closes
    · exact h.leaves earlier closes

end Bracketed

/-! ## The reader and the state -/

/-- An event that marks no frame has a step that is no bracket. -/
theorem Event.kind_of_unmarked {event : Event} (h : event.marksFrame = false) :
    event.kind ≠ .createExecutionContext ∧ event.kind ≠ .destroyExecutionContext := by
  cases event with
  | enterCall _ _ => nomatch h
  | leaveCall _ _ => nomatch h
  | _ => exact ⟨by simp [Event.kind], by simp [Event.kind]⟩

namespace Machine

/-- The steps so far. -/
def steps (m : Machine) : List Step :=
  m.recorder.steps.toList

/-- The calls that the steps so far tell of. -/
def callLog (m : Machine) : CallLog :=
  .ofSteps m.steps

/-- The step of an event that would be recorded now. -/
def stepOf (m : Machine) (event : Event) : Step :=
  ⟨Recorder.stepId m.recorder.steps.size, event.kind, event.detail, some event.data⟩

theorem steps_record (m : Machine) (event : Event) :
    ((Effect.record event).apply m).steps = m.steps ++ [m.stepOf event] :=
  m.recorder.toList_steps_append _ _ _

theorem callLog_record (m : Machine) (event : Event) :
    ((Effect.record event).apply m).callLog = m.callLog.read (m.stepOf event) := by
  rw [callLog, steps_record, CallLog.ofSteps_append]
  rfl

/-- The frames on the stack, the running one first, each with its name and its scope. -/
def calls (m : Machine) : List (String × ScopeId) :=
  m.stack.frames.map fun frame => (frame.name, frame.scope)

/-- The steps are bracketed, and tell the scopes and the frames of the state.  The last step is not
a bracket that opens a call, so that any step may follow. -/
structure TellsCalls (m : Machine) : Prop where
  bracketed : Bracketed m.steps
  size_eq : m.scopes.size = m.callLog.made + 1
  calls_eq : ∃ global, m.calls = m.callLog.opened ++ [(global, globalScope)]
  settled : ∀ s ∈ m.steps.getLast?, s.kind ≠ .createExecutionContext

namespace TellsCalls

variable {m : Machine}

theorem depth_eq (h : m.TellsCalls) : m.stack.depth = m.callLog.opened.length + 1 := by
  obtain ⟨global, calls⟩ := h.calls_eq
  have length := congrArg List.length calls
  simpa [Machine.calls, Stack.depth] using length

theorem frames_ne_nil (h : m.TellsCalls) : m.stack.frames ≠ [] := by
  intro nil
  have depth := h.depth_eq
  simp [Stack.depth, nil] at depth

/-- The scope of the running frame is that of the innermost open call. -/
theorem currentScope_eq (h : m.TellsCalls) : m.currentScope = m.callLog.innermost := by
  obtain ⟨global, calls⟩ := h.calls_eq
  have running : m.stack.running?.map Frame.scope = m.calls.head?.map Prod.snd := by
    rw [Machine.calls, List.head?_map, Option.map_map]
    rfl
  rw [Machine.currentScope, running, calls, CallLog.innermost]
  cases m.callLog.opened with
  | nil => rfl
  | cons call rest => rfl

/-- Any step that is no bracket may be recorded. -/
theorem record_unmarked (h : m.TellsCalls) {event : Event} (unmarked : event.marksFrame = false) :
    ((Effect.record event).apply m).TellsCalls := by
  obtain ⟨notEnter, notLeave⟩ := event.kind_of_unmarked unmarked
  have same : ((Effect.record event).apply m).callLog = m.callLog := by
    rw [callLog_record, CallLog.read]
    split
    · exact absurd ‹_› notEnter
    · exact absurd ‹_› notLeave
    · rfl
  refine ⟨?_, ?_, ?_, ?_⟩
  · rw [steps_record]
    refine h.bracketed.append ?_ (fun opens => absurd opens notEnter)
      fun closes => absurd closes notLeave
    intro before last name ends names
    exact absurd names.kind_eq (h.settled last (by simp [ends]))
  · rw [same]
    exact h.size_eq
  · rw [same]
    exact h.calls_eq
  · intro s last
    rw [steps_record, List.getLast?_concat] at last
    obtain rfl := Option.some.inj last
    exact notEnter

theorem initial (config : Config) : (Machine.initial config).TellsCalls where
  bracketed := .nil
  size_eq := rfl
  calls_eq := ⟨config.globalFrameName, rfl⟩
  settled _ last := nomatch last

end TellsCalls

/-- What the steps tell cannot be spoiled without a call. -/
theorem calmInvariant_tellsCalls :
    Exec.CalmInvariant TellsCalls fun _ m => Bracketed m.steps where
  apply effect m calm h := by
    cases effect with
    | record event => exact h.record_unmarked (by simpa [Effect.isCalm] using calm)
    | bind name binding =>
      exact ⟨h.bracketed, (m.scopes.size_put _ name binding).trans h.size_eq, h.calls_eq, h.settled⟩
    | enter _ _ => exact absurd calm Bool.false_ne_true
    | leave => exact absurd calm Bool.false_ne_true
    | noteFault => exact absurd calm Bool.false_ne_true
    | storeFunction _ _ => exact ⟨h.bracketed, h.size_eq, h.calls_eq, h.settled⟩
    | allocate => exact ⟨h.bracketed, h.size_eq, h.calls_eq, h.settled⟩
    | setProperty _ _ _ => exact ⟨h.bracketed, h.size_eq, h.calls_eq, h.settled⟩
  raise _ _ _ h := h.bracketed

/-! ## The two ends of a call -/

/-- The bracket that opens a call, and the step after it.  In between the reader is one scope ahead
of what it may see next. -/
theorem TellsCalls.ends_createScope {m : Machine} (h : m.TellsCalls) {name : String}
    (prepared : ∃ p ∈ m.steps.getLast?, p.Names .executeExpression name) (id : FunctionId) :
    Exec.Ends TellsCalls (fun _ m => Bracketed m.steps)
      ((record (.createScope name m.scopes.size m.currentScope)).run (m.entered name id)) := by
  let opening := m.stepOf (.enterCall name (m.stack.depth + 1))
  have names : opening.Names .createExecutionContext name := ⟨rfl, rfl⟩
  have steps : (m.entered name id).steps = m.steps ++ [opening] := m.steps_record _
  have log : (m.entered name id).callLog =
      ⟨m.callLog.made + 1, (name, m.callLog.made + 1) :: m.callLog.opened⟩ := m.callLog_record _
  have bracketed : Bracketed (m.entered name id).steps := by
    rw [steps]
    refine h.bracketed.append ?_ (fun _ => ?_) fun closes => nomatch closes
    · intro before last other ends names
      exact absurd names.kind_eq (h.settled last (by simp [ends]))
    · refine ⟨name, names, ?_, prepared, fun n hn => nomatch hn⟩
      show some (Json.nat (m.stack.depth + 1)) = some (.nat (m.callLog.opened.length + 2))
      rw [h.depth_eq]
  cases room : (m.entered name id).recorder.reached? with
  | some limit =>
    rw [run_record_of_reached room]
    exact bracketed
  | none =>
    rw [run_record_of_room room]
    let scope := (m.entered name id).stepOf (.createScope name m.scopes.size m.currentScope)
    have opens : scope.OpensScope name (m.callLog.made + 1) m.callLog.innermost := by
      refine ⟨⟨rfl, rfl⟩, ?_, ?_⟩
      · show some (Json.nat m.scopes.size) = _
        rw [h.size_eq]
      · show some (Json.nat m.currentScope) = _
        rw [h.currentScope_eq]
    refine ⟨?_, ?_, ?_, ?_⟩
    · rw [steps_record]
      refine bracketed.append ?_ (fun opens => nomatch opens) fun closes => nomatch closes
      intro before last other ends names'
      rw [steps] at ends
      obtain ⟨rfl, last'⟩ := List.append_inj' ends rfl
      obtain rfl := List.singleton_inj.mp last'
      have same : name = other := by
        have texts := names.name_eq.symm.trans names'.name_eq
        simpa using texts
      exact same ▸ opens
    · rw [callLog_record, log]
      show (m.scopes.add name m.currentScope).size = m.callLog.made + 1 + 1
      rw [Scopes.size_add, h.size_eq]
    · obtain ⟨global, calls⟩ := h.calls_eq
      refine ⟨global, ?_⟩
      rw [callLog_record, log]
      show (name, m.scopes.size) :: m.calls = (name, m.callLog.made + 1) :: m.callLog.opened ++ _
      rw [h.size_eq, calls]
      rfl
    · intro s last
      rw [steps_record, List.getLast?_concat] at last
      obtain rfl := Option.some.inj last
      exact fun same => nomatch same

/-- The bracket that closes a call, when the frame of the call is on top of the frames of a state
`m` of before. -/
theorem TellsCalls.leaveCall {m m' : Machine} (h : m.TellsCalls) (h' : m'.TellsCalls)
    {name : String} {id : FunctionId} (stack : m'.stack = (m.entered name id).stack) :
    ((Effect.record (.leaveCall name m'.stack.pop.depth)).apply
      (Effect.leave.apply m')).TellsCalls := by
  obtain ⟨global, calls⟩ := h.calls_eq
  obtain ⟨global', calls'⟩ := h'.calls_eq
  have opened : m'.callLog.opened = (name, m.scopes.size) :: m.callLog.opened := by
    have onTop : m'.calls = (name, m.scopes.size) :: m.calls := by
      rw [Machine.calls, stack]
      rfl
    rw [onTop, calls, ← List.cons_append] at calls'
    exact (List.append_inj' calls' rfl).1.symm
  have popped : m'.stack.pop = m.stack := by
    rw [stack, pop_stack_entered h.frames_ne_nil]
  let closing := (Effect.leave.apply m').stepOf (.leaveCall name m'.stack.pop.depth)
  have log : ((Effect.record (.leaveCall name m'.stack.pop.depth)).apply
      (Effect.leave.apply m')).callLog = ⟨m'.callLog.made, m.callLog.opened⟩ := by
    rw [callLog_record]
    show CallLog.mk m'.callLog.made m'.callLog.opened.tail = _
    rw [opened]
    rfl
  refine ⟨?_, ?_, ?_, ?_⟩
  · rw [steps_record]
    refine h'.bracketed.append ?_ (fun opens => nomatch opens) fun _ => ?_
    · intro before last other ends names
      exact absurd names.kind_eq (h'.settled last (by simp [ends]))
    · refine ⟨name, m.scopes.size, m.callLog.opened, opened, ⟨rfl, rfl⟩, ?_⟩
      show some (Json.nat m'.stack.pop.depth) = _
      rw [popped, h.depth_eq]
  · rw [log]
    exact h'.size_eq
  · refine ⟨global, ?_⟩
    rw [log]
    show m'.stack.pop.frames.map (fun frame => (frame.name, frame.scope)) = _
    rw [popped]
    exact calls
  · intro s last
    rw [steps_record, List.getLast?_concat] at last
    obtain rfl := Option.some.inj last
    exact fun same => nomatch same

end Machine

/-! ## Calls -/

open Machine

/-- A call keeps the agreement of the steps with the state. -/
theorem upholds_tellsCalls_callFunction (program : Program) (limit allowance : Nat)
    (name : String) :
    (callFunction program limit allowance name).Upholds TellsCalls
      fun _ m => Bracketed m.steps := by
  induction allowance generalizing name with
  | zero =>
    rw [callFunction]
    refine (calmInvariant_tellsCalls.upholds (.record rfl)).bind fun _ => ?_
    refine (calmInvariant_tellsCalls.upholds
      (.asksOrRaises fun m fault => m.isOverflow_of_callee)).bind fun id => ?_
    exact fun m tells => tells.bracketed
  | succ allowance ih =>
    intro m tells
    rw [callFunction]
    cases room : m.recorder.reached? with
    | some limit =>
      rw [Exec.run_bind_of_error (run_record_of_reached room)]
      exact tells.bracketed
    | none =>
      rw [Exec.run_bind_of_ok (run_record_of_room room)]
      let p := (Effect.record (.prepareCall name)).apply m
      have prepared : p.TellsCalls := tells.record_unmarked rfl
      have last : ∃ s ∈ p.steps.getLast?, s.Names .executeExpression name := by
        refine ⟨m.stepOf (.prepareCall name), ?_, rfl, rfl⟩
        rw [m.steps_record, List.getLast?_concat]
        rfl
      show Exec.Ends _ _ (Exec.run _ p)
      rcases callee : p.callee name with fault | id
      · have failed : (Exec.asksOrRaises fun m => m.callee name).run p = (.error fault, p) := by
          rw [Exec.run_asksOrRaises, callee]
        rw [Exec.run_bind_of_error failed]
        exact prepared.bracketed
      · have found : (Exec.asksOrRaises fun m => m.callee name).run p = (.ok id, p) := by
          rw [Exec.run_asksOrRaises, callee]
        rw [Exec.run_bind_of_ok found]
        have body := calmInvariant_tellsCalls.ends_runBody ih program name id p.scopes.size
          p.currentScope (prepared.ends_createScope last id)
        have stack := (orderly_runBody program (orderly_callFunction program limit allowance) name
          id p.scopes.size p.currentScope).stack_run (p.frames_entered_ne_nil name id)
        have frame := frameRun_inFrame name id
          (runBody program (callFunction program limit allowance) name id) p
        generalize (inFrame name id (runBody program (callFunction program limit allowance) name
          id)).run p = outcome at frame ⊢
        cases frame with
        | refused _ => exact prepared.bracketed
        | failed ended =>
          rw [ended] at body
          exact body
        | untold ended _ =>
          rw [ended] at body
          exact body.bracketed
        | finished ended =>
          rw [ended] at body stack
          exact prepared.leaveCall body stack

theorem upholds_tellsCalls_executeStatements (program : Program) (limit : Nat)
    (statements : List Statement) :
    (executeStatements program limit statements).Upholds TellsCalls
      fun _ m => Bracketed m.steps := by
  induction statements with
  | nil => exact fun m tells => tells
  | cons s rest ih =>
    rw [executeStatements]
    refine Exec.Upholds.bind (fun m tells => ?_) fun _ => ih
    exact calmInvariant_tellsCalls.upholds_execute
      (upholds_tellsCalls_callFunction program limit _) s m tells

theorem upholds_tellsCalls_runScript (config : Config) (program : Program) :
    (runScript config program).Upholds TellsCalls fun _ m => Bracketed m.steps := by
  rw [runScript]
  refine (calmInvariant_tellsCalls.upholds (.record rfl)).bind fun _ => ?_
  refine (calmInvariant_tellsCalls.upholds (calm_hoist .script program.body)).bind fun _ => ?_
  exact upholds_tellsCalls_executeStatements program _ _

/-! ## Traces -/

/-- **The steps of calls are brackets.**  Every bracket in a trace carries the name of its call and
the numbers that a reader of the steps before it counts; a bracket that opens a call stands between
the step that prepares the call and, unless the run is cut off right there, the step that tells of
its scope.  If no fault stops the run, every bracket that is opened is closed. -/
theorem runProgram_brackets_calls (config : Config) (program : Program) :
    let t := runProgram config program
    Bracketed t.ongoing ∧
      (t.fault = none →
        t.steps.toList = t.ongoing ∧ (CallLog.ofSteps t.ongoing).opened = [] ∧
          ∀ before s after, t.ongoing = before ++ s :: after →
            s.kind = .createExecutionContext → after ≠ []) := by
  intro t
  have outcome := upholds_tellsCalls_runScript config program _ (TellsCalls.initial config)
  have stack := (orderly_runScript config program).stack_run (m := .initial config)
    (List.cons_ne_nil _ _)
  have ongoing : t.ongoing = _ := ongoing_runProgram config program
  rcases ended : (runScript config program).run (.initial config) with ⟨fault | _, m⟩
  · rw [ended] at outcome ongoing
    refine ⟨ongoing ▸ outcome, fun none => ?_⟩
    have stopped : t.fault = some fault := by
      show (runProgram config program).fault = some fault
      rw [runProgram_of_fault ended]
    rw [stopped] at none
    exact nomatch none
  · rw [ended] at outcome stack ongoing
    have tells : m.TellsCalls := outcome
    refine ⟨ongoing ▸ tells.bracketed, fun _ => ⟨?_, ?_, ?_⟩⟩
    · rw [ongoing]
      show (runProgram config program).steps.toList = _
      rw [runProgram_of_result ended]
    · have depth := tells.depth_eq
      have one : m.stack.depth = 1 := congrArg Stack.depth stack
      rw [ongoing]
      show m.callLog.opened = []
      exact List.eq_nil_of_length_eq_zero (by omega)
    · rintro before s after place opens rfl
      refine tells.settled s ?_ opens
      have last : m.steps = before ++ [s] := ongoing.symm.trans place
      rw [last, List.getLast?_concat]
      rfl

end ScriptTrace
