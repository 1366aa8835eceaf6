import ScriptTrace.Proofs.Orderly
import ScriptTrace.Proofs.Recording

/-!
# The call stack, and what the trace tells of it

A frame goes on the stack when a body starts to run and comes off when the body ends, with a result
or with a fault.  So every orderly execution leaves the stack as it found it
(`Exec.Orderly.stack_run`).

The steps of a trace tell of the frames too: one kind of step says that a frame with a name is on
the stack, another that the last one is off.  `replayedStack` reads the stack back from the steps.

## Where the two agree

While an execution goes on, the steps tell exactly the stack (`Machine.Told`).  This is not an
invariant of every effect.  A frame is told before it is there, it is gone before its end is told,
and after a fault it is gone and its end is never told.  But no fault is raised between the first
two, and the place of a fault is kept before the first frame goes.  So the place that is reported is
what the steps tell, except that the fault which says that there may be no more steps can be raised
between a frame going off and its end being told; then the place lacks the last name
(`Fault.SurfacesAt`).

* `frameRun_inFrame`: the ways in which a body in a frame of its own ends.
* `Exec.Orderly.stack_run`, `Exec.Orderly.told`: what an orderly execution does to the stack.
* `runProgram_reports_fault`: the step that reports a fault, and the place that it names.
-/

namespace ScriptTrace

/-! ## A body in a frame of its own -/

/-- The state in which a body in a frame of its own begins. -/
def Machine.entered (m : Machine) (name : String) (id : FunctionId) : Machine :=
  (Effect.enter name (some id)).apply
    ((Effect.record (.enterCall name (m.stack.depth + 1))).apply m)

/-- The ways in which a body in a frame of its own ends, from a state `m`. -/
inductive FrameRun (name : String) (id : FunctionId) (body : ScopeId → ScopeId → Exec Unit)
    (m : Machine) : Except Fault Unit × Machine → Prop
  /-- There is no room for the step that tells of the frame. -/
  | refused {limit : Nat} (full : m.recorder.reached? = some limit) :
      FrameRun name id body m (.error (.stepLimit limit), m)
  /-- The body ends with a fault. -/
  | failed {fault : Fault} {m' : Machine}
      (ended : (body m.scopes.size m.currentScope).run (m.entered name id) = (.error fault, m')) :
      FrameRun name id body m (.error fault, Effect.leave.apply (Effect.noteFault.apply m'))
  /-- The body ends with a result, and there is no room for the step that says so. -/
  | untold {limit : Nat} {m' : Machine}
      (ended : (body m.scopes.size m.currentScope).run (m.entered name id) = (.ok (), m'))
      (full : m'.recorder.reached? = some limit) :
      FrameRun name id body m (.error (.stepLimit limit), Effect.leave.apply m')
  /-- The body ends with a result, and a step says so. -/
  | finished {m' : Machine}
      (ended : (body m.scopes.size m.currentScope).run (m.entered name id) = (.ok (), m')) :
      FrameRun name id body m
        (.ok (), (Effect.record (.leaveCall name m'.stack.pop.depth)).apply (Effect.leave.apply m'))

/-- A body in a frame of its own runs once its frame is told, and then the frame is left. -/
theorem run_inFrame_of_room (name : String) (id : FunctionId)
    (body : ScopeId → ScopeId → Exec Unit) {m : Machine} (room : m.recorder.reached? = none) :
    (inFrame name id body).run m =
      (leaveFrame name ((body m.scopes.size m.currentScope).run (m.entered name id)).1).run
        ((body m.scopes.size m.currentScope).run (m.entered name id)).2 := by
  rw [inFrame, Exec.run_asks_bind, Exec.run_bind_of_ok (run_record_of_room room),
    Exec.run_asks_bind, Exec.run_asks_bind, Exec.run_perform_bind, Exec.run_attempt]
  rfl

theorem frameRun_inFrame (name : String) (id : FunctionId)
    (body : ScopeId → ScopeId → Exec Unit) (m : Machine) :
    FrameRun name id body m ((inFrame name id body).run m) := by
  cases room : m.recorder.reached? with
  | some limit =>
    rw [inFrame, Exec.run_asks_bind, Exec.run_bind_of_error (run_record_of_reached room)]
    exact .refused room
  | none =>
    rw [run_inFrame_of_room name id body room]
    rcases ended : (body m.scopes.size m.currentScope).run (m.entered name id) with
      ⟨fault | _, m'⟩
    · exact .failed ended
    · rw [leaveFrame, Exec.run_perform_bind, Exec.run_asks_bind]
      cases full : m'.recorder.reached? with
      | some limit =>
        have full' : (Effect.leave.apply m').recorder.reached? = some limit := full
        rw [run_record_of_reached full']
        exact .untold ended full
      | none =>
        have room' : (Effect.leave.apply m').recorder.reached? = none := full
        rw [run_record_of_room room']
        exact .finished ended

/-! ## The stack is left as it was found -/

theorem Effect.stack_apply_of_isLocal {effect : Effect} (h : effect.isLocal = true)
    (m : Machine) : (effect.apply m).stack = m.stack := by
  cases effect with
  | enter _ _ => nomatch h
  | leave => nomatch h
  | _ => rfl

theorem Machine.frames_entered_ne_nil (m : Machine) (name : String) (id : FunctionId) :
    (m.entered name id).stack.frames ≠ [] :=
  List.cons_ne_nil _ _

/-- When the running frame of a body is taken off, the stack is that from before the body. -/
theorem Machine.pop_stack_entered {m : Machine} (ne : m.stack.frames ≠ []) (name : String)
    (id : FunctionId) : (m.entered name id).stack.pop = m.stack :=
  Stack.pop_push _ ne

/-- **An orderly execution leaves the stack as it found it**, with a result or with a fault. -/
theorem Exec.Orderly.stack_run {allowed : Effect → Prop} {α : Type} {x : Exec α}
    (h : x.Orderly allowed) {m : Machine} (ne : m.stack.frames ≠ []) :
    (x.run m).2.stack = m.stack := by
  induction h generalizing m with
  | done _ => rfl
  | raise _ _ => rfl
  | look _ _ ih => exact ih m ne
  | record event _ =>
    cases room : m.recorder.reached? with
    | some limit => rw [run_record_of_reached room]
    | none =>
      rw [run_record_of_room room]
      rfl
  | perform effect isLocal _ => exact Effect.stack_apply_of_isLocal isLocal m
  | @bind _ _ x next _ _ first each =>
    have hx := first ne
    rcases outcome : x.run m with ⟨fault | a, m'⟩
    · rw [outcome] at hx
      rw [run_bind_of_error outcome]
      exact hx
    · rw [outcome] at hx
      rw [run_bind_of_ok outcome, each a (hx ▸ ne), hx]
  | @inFrame name id body _ _ each =>
    have restored : ∀ {r m'}, (body m.scopes.size m.currentScope).run (m.entered name id) = (r, m') →
        m'.stack.pop = m.stack := by
      intro r m' ended
      have hbody := each m.scopes.size m.currentScope (m.frames_entered_ne_nil name id)
      rw [ended] at hbody
      rw [hbody, Machine.pop_stack_entered ne]
    have frame := frameRun_inFrame name id body m
    generalize (ScriptTrace.inFrame name id body).run m = outcome at frame ⊢
    cases frame with
    | refused _ => rfl
    | @failed _ m' ended =>
      show m'.stack.pop = m.stack
      exact restored ended
    | untold ended _ => exact restored ended
    | finished ended => exact restored ended

/-! ## Reading the stack back from the steps -/

/-- The call stack after a step, as the step tells it. -/
def Step.replay (stack : List String) (s : Step) : List String :=
  match s.kind with
  | .createExecutionContext => stack ++ ((s.field? "name").bind Step.stringOf?).toList
  | .destroyExecutionContext => stack.dropLast
  | _ => stack

/-- The call stack that steps tell, when the frame of the script has the name `global`. -/
def replayedStack (global : String) (steps : List Step) : List String :=
  steps.foldl Step.replay [global]

theorem Stack.names_push (s : Stack) (frame : Frame) :
    (s.push frame).names = s.names ++ [frame.name] := by
  simp [Stack.names, Stack.push]

namespace Machine

/-- The stack that the steps so far tell. -/
def replayed (m : Machine) (global : String) : List String :=
  replayedStack global m.recorder.steps.toList

theorem replayed_record (m : Machine) (global : String) (event : Event) :
    ((Effect.record event).apply m).replayed global =
      Step.replay (m.replayed global)
        ⟨Recorder.stepId m.recorder.steps.size, event.kind, event.detail, some event.data⟩ := by
  have appended : ((Effect.record event).apply m).recorder.steps.toList = m.recorder.steps.toList ++
      [⟨Recorder.stepId m.recorder.steps.size, event.kind, event.detail, some event.data⟩] :=
    m.recorder.toList_steps_append _ _ _
  rw [replayed, replayedStack, appended, List.foldl_append]
  rfl

/-- An event that does not mark a frame leaves the told stack alone. -/
theorem replayed_record_of_unmarked (m : Machine) (global : String) {event : Event}
    (h : event.marksFrame = false) :
    ((Effect.record event).apply m).replayed global = m.replayed global := by
  rw [replayed_record]
  cases event with
  | enterCall _ _ => nomatch h
  | leaveCall _ _ => nomatch h
  | _ => rfl

theorem replayed_record_enterCall (m : Machine) (global name : String) (depth : Nat) :
    ((Effect.record (.enterCall name depth)).apply m).replayed global =
      m.replayed global ++ [name] :=
  m.replayed_record global _

theorem replayed_record_leaveCall (m : Machine) (global name : String) (depth : Nat) :
    ((Effect.record (.leaveCall name depth)).apply m).replayed global =
      (m.replayed global).dropLast :=
  m.replayed_record global _

/-- The steps tell the stack, and no fault is on its way. -/
structure Told (global : String) (m : Machine) : Prop where
  frames_ne_nil : m.stack.frames ≠ []
  replayed_eq : m.replayed global = m.stack.names
  faultSite_eq : m.faultSite = none

namespace Told

variable {global : String} {m : Machine}

/-- Where a fault would be reported now. -/
theorem siteOfFault_eq (h : m.Told global) : m.siteOfFault = m.replayed global := by
  rw [siteOfFault, h.faultSite_eq, h.replayed_eq]
  rfl

theorem record (h : m.Told global) {event : Event} (unmarked : event.marksFrame = false) :
    ((Effect.record event).apply m).Told global where
  frames_ne_nil := h.frames_ne_nil
  replayed_eq := by
    rw [m.replayed_record_of_unmarked global unmarked]
    exact h.replayed_eq
  faultSite_eq := h.faultSite_eq

theorem perform (h : m.Told global) {effect : Effect} (isLocal : effect.isLocal = true) :
    (effect.apply m).Told global := by
  cases effect with
  | record _ => nomatch isLocal
  | enter _ _ => nomatch isLocal
  | leave => nomatch isLocal
  | noteFault => nomatch isLocal
  | _ => exact ⟨h.frames_ne_nil, h.replayed_eq, h.faultSite_eq⟩

/-- The step comes first and then the frame; afterwards the two agree again. -/
theorem entered (h : m.Told global) (name : String) (id : FunctionId) :
    (m.entered name id).Told global where
  frames_ne_nil := m.frames_entered_ne_nil name id
  replayed_eq := by
    have told : (m.entered name id).replayed global = m.replayed global ++ [name] :=
      m.replayed_record_enterCall global name (m.stack.depth + 1)
    rw [told, h.replayed_eq]
    exact (m.stack.names_push ⟨name, some id, m.scopes.size⟩).symm
  faultSite_eq := h.faultSite_eq

end Told

end Machine

/-! ## The place of a fault -/

/-- How the place of a fault compares with the stack that the steps tell: they are the same, or the
fault is that there may be no more steps and the place lacks the last name. -/
def Fault.SurfacesAt (fault : Fault) (site told : List String) : Prop :=
  site = told ∨ (∃ limit, fault = .stepLimit limit) ∧ site = told.dropLast

/-- What holds at the end of an execution that starts with the steps telling the stack. -/
def ToldOutcome {α : Type} (global : String) : Except Fault α × Machine → Prop
  | (.ok _, m) => m.Told global
  | (.error fault, m) => fault.SurfacesAt m.siteOfFault (m.replayed global)

/-- A fault raised while the steps tell the stack. -/
theorem Machine.Told.raise {global : String} {m : Machine} (h : m.Told global) {α : Type}
    (fault : Fault) : ToldOutcome global ((.error fault, m) : Except Fault α × Machine) :=
  Or.inl h.siteOfFault_eq

namespace Exec.Orderly

variable {allowed : Effect → Prop} {α : Type} {global : String}

/-- A body in a frame of its own.  After a fault in the body the place is kept before the frame is
gone; after a result the frame is gone before that is told. -/
theorem told_inFrame {name : String} {id : FunctionId} {body : ScopeId → ScopeId → Exec Unit}
    (orderly : ∀ scope outer, (body scope outer).Orderly allowed)
    (each : ∀ scope outer {m : Machine}, m.Told global →
      ToldOutcome global ((body scope outer).run m))
    {m : Machine} (told : m.Told global) :
    ToldOutcome global ((ScriptTrace.inFrame name id body).run m) := by
  have begins := told.entered name id
  have inside := each m.scopes.size m.currentScope begins
  -- after a result the body has left its frame on top, and the steps tell of it
  have after : ∀ {m'}, (body m.scopes.size m.currentScope).run (m.entered name id) = (.ok (), m') →
      m'.faultSite = none ∧ m'.stack.pop = m.stack ∧
        m'.replayed global = m.stack.names ++ [name] := by
    intro m' ended
    have balanced := (orderly m.scopes.size m.currentScope).stack_run begins.frames_ne_nil
    rw [ended] at inside balanced
    refine ⟨inside.faultSite_eq, ?_, ?_⟩
    · rw [balanced, Machine.pop_stack_entered told.frames_ne_nil]
    · rw [inside.replayed_eq, balanced]
      exact m.stack.names_push _
  have frame := frameRun_inFrame name id body m
  generalize (ScriptTrace.inFrame name id body).run m = outcome at frame ⊢
  cases frame with
  | refused _ => exact told.raise _
  | failed ended =>
    rw [ended] at inside
    exact inside
  | @untold limit m' ended _ =>
    obtain ⟨site, popped, replayed⟩ := after ended
    refine Or.inr ⟨⟨limit, rfl⟩, ?_⟩
    show m'.faultSite.getD m'.stack.pop.names = (m'.replayed global).dropLast
    rw [site, popped, replayed, List.dropLast_concat]
    rfl
  | @finished m' ended =>
    obtain ⟨site, popped, replayed⟩ := after ended
    refine ⟨?_, ?_, site⟩
    · show m'.stack.pop.frames ≠ []
      rw [popped]
      exact told.frames_ne_nil
    · rw [Machine.replayed_record_leaveCall]
      show (m'.replayed global).dropLast = m'.stack.pop.names
      rw [popped, replayed, List.dropLast_concat]

/-- **While an execution goes on, the steps tell the stack**, and where it stops, they tell the
place of the fault. -/
theorem told {x : Exec α} (h : x.Orderly allowed) {m : Machine} (told : m.Told global) :
    ToldOutcome global (x.run m) := by
  induction h generalizing m with
  | done _ => exact told
  | raise fault _ => exact told.raise fault
  | look _ _ ih => exact ih m told
  | record event unmarked =>
    cases room : m.recorder.reached? with
    | some limit =>
      rw [run_record_of_reached room]
      exact told.raise _
    | none =>
      rw [run_record_of_room room]
      exact told.record unmarked
  | perform effect isLocal _ => exact told.perform isLocal
  | @bind _ _ x next _ _ first each =>
    have inside := first told
    rcases outcome : x.run m with ⟨fault | a, m'⟩
    · rw [outcome] at inside
      rw [run_bind_of_error outcome]
      exact inside
    · rw [outcome] at inside
      rw [run_bind_of_ok outcome]
      exact each a inside
  | inFrame name id _ orderly each => exact told_inFrame orderly each told

end Exec.Orderly

/-! ## Traces -/

theorem Machine.told_initial (config : Config) :
    (Machine.initial config).Told config.globalFrameName :=
  ⟨List.cons_ne_nil _ _, rfl, rfl⟩

/-- **The step that reports a fault.**  The steps of a trace are numbered from zero.  A step reports
a fault exactly when a fault stopped the run; it is then the last one and the only one of its kind,
and carries the kind, the text and the place of the fault.  The place is the call stack that the
steps before it tell; only the fault that there may be no more steps can also be reported at that
stack without its last name. -/
theorem runProgram_reports_fault (config : Config) (program : Program) :
    let t := runProgram config program
    let told := replayedStack config.globalFrameName t.ongoing
    (∀ (i : Nat) (s : Step), t.steps[i]? = some s → s.id = "step-" ++ toString i) ∧
      ((∃ s ∈ t.steps, s.kind.isHalting = true) ↔ t.fault.isSome = true) ∧
      ∀ fault, t.fault = some fault →
        ∃ (last : Step) (site : List String), t.steps.toList = t.ongoing ++ [last] ∧
          last.kind.isHalting = true ∧ last.Reports fault site ∧
          ((∀ limit, fault ≠ .stepLimit limit) → site = told) ∧
          ∀ limit, fault = .stepLimit limit → site = told ∨ site = told.dropLast := by
  intro t told
  refine ⟨fun i s => numbered_runProgram config program, exists_isHalting_iff config program, ?_⟩
  intro fault stopped
  have outcome := (orderly_runScript config program).told (Machine.told_initial config)
  have ongoing : t.ongoing = _ := ongoing_runProgram config program
  rcases ended : (runScript config program).run (.initial config) with ⟨fault' | _, m⟩
  · rw [ended] at outcome ongoing
    have ht : t = _ := runProgram_of_fault ended
    have same : fault' = fault := by
      rw [ht] at stopped
      exact Option.some.inj stopped
    subst same
    obtain ⟨last, steps, -, reports⟩ := m.recorder.exists_report fault' m.siteOfFault
    have htold : told = m.replayed config.globalFrameName := by
      show replayedStack config.globalFrameName t.ongoing = _
      rw [ongoing]
      rfl
    refine ⟨last, m.siteOfFault, ?_, ?_, reports, ?_, ?_⟩
    · rw [ongoing, ht]
      exact steps
    · rw [reports.kind_eq, fault'.isHalting_haltingKind]
    · intro ne
      rw [htold]
      rcases outcome with site | ⟨⟨limit, heq⟩, -⟩
      · exact site
      · exact absurd heq (ne limit)
    · intro limit _
      rw [htold]
      rcases outcome with site | ⟨-, site⟩
      · exact Or.inl site
      · exact Or.inr site
  · have ht : t = _ := runProgram_of_result ended
    rw [ht] at stopped
    exact nomatch stopped

end ScriptTrace
