import ScriptTrace.Proofs.Calm
import ScriptTrace.Proofs.ScopeChain

/-!
# A bound on the call stack cuts the trace

The bound on the number of frames is a setting of a run.  This file compares the runs of one program
under two bounds.  The run under the smaller bound is the run under the larger one, cut off at the
first call for which the smaller bound leaves no room.

## Two executions

The bound is not part of the state; it is a number in the execution.  So the two runs are runs of
two different executions, and `Exec.ShortOf` compares them: from every state they end alike, or the
first ends with the fault that the stack is full and the second has at least the steps of the first.
Only the call of a name can tell the two executions apart (`shortOf_callFunction`); every other
statement is the same execution under both bounds.

## Where the stack is full

The allowance of a call is what the bound leaves on the stack that the call is made on.  From this
follow the number of names that a full stack is reported with, and the largest depth that a step
tells (`upholds_shallow_callFunction`).  With the bound zero there is still the frame of the script.

* `runProgram_cut_at_depth`: the comparison for traces.
-/

namespace ScriptTrace

/-! ## Two runs side by side -/

/-- How the outcome `cut` of a run under the bound `limit` compares with the outcome `full` of a run
under a larger bound. -/
inductive CutShort {α : Type} (limit : Nat) (cut full : Except Fault α × Machine) : Prop
  /-- The outcomes agree. -/
  | same (eq : cut = full)
  /-- The stack was full, and the steps up to there are left. -/
  | overflow (fault : cut.1 = .error (.stackOverflow limit))
      (steps : cut.2.recorder.steps.toList <+: full.2.recorder.steps.toList)

namespace Exec

variable {α β : Type}

/-- The first execution is the second, perhaps cut off where the stack is full. -/
def ShortOf (limit : Nat) (x y : Exec α) : Prop :=
  ∀ m, CutShort limit (x.run m) (y.run m)

namespace ShortOf

variable {limit : Nat}

theorem refl (x : Exec α) : ShortOf limit x x :=
  fun _ => .same rfl

/-- Where the stack is full, it does not matter how the second execution goes on. -/
theorem raise (y : Exec α) : ShortOf limit (.raise (.stackOverflow limit)) y :=
  fun m => .overflow rfl (y.steps_prefix_run m)

theorem look {next next' : Machine → Exec α} (each : ∀ m, ShortOf limit (next m) (next' m)) :
    ShortOf limit (.look next) (.look next') :=
  fun m => each m m

/-- One execution after another, where the first one of both hands a full stack on and records
nothing more. -/
theorem attempt {x y : Exec α} {next next' : Except Fault α → Exec β} (first : ShortOf limit x y)
    (each : ∀ r, ShortOf limit (next r) (next' r))
    (passes : ∀ m, ((next (.error (.stackOverflow limit))).run m).1 =
        .error (.stackOverflow limit) ∧
      ((next (.error (.stackOverflow limit))).run m).2.recorder = m.recorder) :
    ShortOf limit (x.attempt next) (y.attempt next') := by
  intro m
  rw [run_attempt, run_attempt]
  rcases first m with ⟨same⟩ | ⟨fault, steps⟩
  · rw [same]
    exact each _ _
  · obtain ⟨handed, quiet⟩ := passes (x.run m).2
    have further := (next' (y.run m).1).steps_prefix_run (y.run m).2
    rw [fault]
    refine .overflow handed ?_
    rw [quiet]
    exact steps.trans further

theorem bind {x y : Exec α} {next next' : α → Exec β} (first : ShortOf limit x y)
    (each : ∀ a, ShortOf limit (next a) (next' a)) :
    ShortOf limit (x >>= next) (y >>= next') := by
  show ShortOf limit (x.bind next) (y.bind next')
  rw [bind_eq_attempt, bind_eq_attempt]
  refine first.attempt ?_ fun m => ⟨rfl, rfl⟩
  rintro (fault | a)
  · exact refl _
  · exact each a

/-- Bodies in a frame of their own. -/
theorem inFrame (name : String) (id : FunctionId) {body body' : ScopeId → ScopeId → Exec Unit}
    (each : ∀ scope outer, ShortOf limit (body scope outer) (body' scope outer)) :
    ShortOf limit (inFrame name id body) (ScriptTrace.inFrame name id body') := by
  rw [ScriptTrace.inFrame, ScriptTrace.inFrame]
  refine bind (refl _) fun depth => ?_
  refine bind (refl _) fun _ => ?_
  refine bind (refl _) fun scope => ?_
  refine bind (refl _) fun outer => ?_
  refine bind (refl _) fun _ => ?_
  exact attempt (each scope outer) (fun _ => refl _) fun m => ⟨rfl, rfl⟩

variable {call call' : String → Exec Unit}

theorem execute (calls : ∀ name, ShortOf limit (call name) (call' name)) (s : Statement) :
    ShortOf limit (execute call s) (ScriptTrace.execute call' s) := by
  cases called : s.calledName? with
  | some name =>
    rw [execute_of_calledName? called, execute_of_calledName? called]
    exact calls name
  | none =>
    rw [execute_eq_of_calledName? called call call']
    exact refl _

theorem executeAll (calls : ∀ name, ShortOf limit (call name) (call' name))
    (statements : List Statement) :
    ShortOf limit (executeAll call statements) (ScriptTrace.executeAll call' statements) := by
  induction statements with
  | nil => exact refl _
  | cons s rest ih =>
    rw [ScriptTrace.executeAll, ScriptTrace.executeAll]
    exact bind (execute calls s) fun _ => ih

theorem runBody (program : Program) (calls : ∀ name, ShortOf limit (call name) (call' name))
    (name : String) (id : FunctionId) (scope outer : ScopeId) :
    ShortOf limit (runBody program call name id scope outer)
      (ScriptTrace.runBody program call' name id scope outer) := by
  rw [ScriptTrace.runBody, ScriptTrace.runBody]
  refine bind (refl _) fun _ => ?_
  cases program.function? id with
  | none => exact refl _
  | some definition => exact bind (refl _) fun _ => executeAll calls definition.body

end ShortOf

end Exec

open Exec (ShortOf)

/-- **A smaller allowance only cuts a call short.**  The induction is on the smaller one; where it
is used up, the larger one may still let the call go on. -/
theorem shortOf_callFunction (program : Program) (limit limit' : Nat) {allowance allowance' : Nat}
    (le : allowance ≤ allowance') (name : String) :
    ShortOf limit (callFunction program limit allowance name)
      (callFunction program limit' allowance' name) := by
  induction allowance generalizing allowance' name with
  | zero =>
    rw [callFunction, callFunction.eq_def program limit' allowance' name]
    refine .bind (.refl _) fun _ => ?_
    exact .bind (.refl _) fun id => .raise _
  | succ allowance ih =>
    obtain ⟨more, rfl⟩ : ∃ more, allowance' = more + 1 := ⟨allowance' - 1, by omega⟩
    have calls := fun name => ih (Nat.le_of_succ_le_succ le) name
    rw [callFunction, callFunction]
    refine .bind (.refl _) fun _ => ?_
    exact .bind (.refl _) fun id => .inFrame name id (.runBody program calls name id)

theorem shortOf_executeStatements (program : Program) {limit limit' : Nat} (le : limit ≤ limit')
    (statements : List Statement) :
    ShortOf limit (executeStatements program limit statements)
      (executeStatements program limit' statements) := by
  induction statements with
  | nil => exact .refl _
  | cons s rest ih =>
    rw [executeStatements, executeStatements]
    refine .bind (.look fun m => ?_) fun _ => ih
    exact .execute (shortOf_callFunction program limit limit' (Nat.sub_le_sub_right le _)) s

theorem shortOf_runScript (config : Config) (program : Program) {depth depth' : Nat}
    (le : Config.callDepthLimit { config with maxCallDepth := depth } ≤
      Config.callDepthLimit { config with maxCallDepth := depth' }) :
    ShortOf (Config.callDepthLimit { config with maxCallDepth := depth })
      (runScript { config with maxCallDepth := depth } program)
      (runScript { config with maxCallDepth := depth' } program) := by
  rw [runScript, runScript]
  refine .bind (.refl _) fun _ => ?_
  exact .bind (.refl _) fun _ => shortOf_executeStatements program le program.body

/-! ## Where the stack is full -/

/-- No step tells of a frame beyond the bound. -/
def Recorder.EntersWithin (limit : Nat) (r : Recorder) : Prop :=
  ∀ s ∈ r.steps, s.kind = .createExecutionContext →
    ∃ depth ≤ limit, s.field? "depth" = some (.nat depth)

/-- The step of an event may be recorded, if it does not tell of a frame beyond the bound. -/
theorem Recorder.EntersWithin.appendEvent {limit : Nat} {r : Recorder} (h : r.EntersWithin limit)
    {event : Event} (fits : ∀ name depth, event = .enterCall name depth → depth ≤ limit) :
    (r.appendEvent event).EntersWithin limit := by
  intro s hs opens
  rcases Array.mem_push.mp hs with hs | rfl
  · exact h s hs opens
  · cases event with
    | enterCall name depth => exact ⟨depth, fits name depth rfl, rfl⟩
    | _ => exact nomatch opens

namespace Machine

/-- The stack is a given one, no fault is on its way, and no step tells of a frame beyond the
bound. -/
structure Shallow (limit : Nat) (stack : Stack) (m : Machine) : Prop where
  stack_eq : m.stack = stack
  faultSite_eq : m.faultSite = none
  within : m.recorder.EntersWithin limit

/-- After a fault: if the fault is that the stack is full, it names the bound, and the place of the
fault has as many names as the bound allows, but at least that of the script. -/
structure Overfull (limit : Nat) (fault : Fault) (m : Machine) : Prop where
  within : m.recorder.EntersWithin limit
  full : ∀ k, fault = .stackOverflow k → k = limit ∧ m.siteOfFault.length = max limit 1

variable {limit : Nat}

theorem Overfull.of_isOverflow {fault : Fault} (h : fault.isOverflow = false) {m : Machine}
    (within : m.recorder.EntersWithin limit) : m.Overfull limit fault where
  within := within
  full := by
    rintro k rfl
    exact nomatch h

theorem calmInvariant_shallow (limit : Nat) (stack : Stack) :
    Exec.CalmInvariant (Shallow limit stack) fun fault m => m.Overfull limit fault where
  apply effect m calm h := by
    refine ⟨?_, ?_, ?_⟩
    · rw [Effect.stack_apply_of_isCalm calm, h.stack_eq]
    · rw [Effect.faultSite_apply_of_isCalm calm, h.faultSite_eq]
    · cases effect with
      | record event =>
        refine h.within.appendEvent ?_
        rintro name depth rfl
        exact nomatch calm
      | _ => exact h.within
  raise fault m notFull h := .of_isOverflow notFull h.within

/-- A body in a frame of its own, if there is room for the frame. -/
theorem Shallow.ends_inFrame {stack : Stack} {m : Machine} (h : m.Shallow limit stack)
    (ne : stack.frames ≠ []) (room : stack.depth + 1 ≤ limit) {name : String} {id : FunctionId}
    {body : ScopeId → ScopeId → Exec Unit}
    (inside : ∀ m' : Machine, m'.Shallow limit (m.entered name id).stack →
      Exec.Ends (Shallow limit (m.entered name id).stack) (fun fault m => m.Overfull limit fault)
        ((body m.scopes.size m.currentScope).run m')) :
    Exec.Ends (Shallow limit stack) (fun fault m => m.Overfull limit fault)
      ((inFrame name id body).run m) := by
  have entered : (m.entered name id).Shallow limit (m.entered name id).stack := by
    refine ⟨rfl, h.faultSite_eq, h.within.appendEvent ?_⟩
    rintro other depth ⟨⟩
    rwa [h.stack_eq]
  have popped : (m.entered name id).stack.pop = stack := by
    rw [pop_stack_entered (h.stack_eq ▸ ne), h.stack_eq]
  have ran := inside _ entered
  have frame := frameRun_inFrame name id body m
  generalize (inFrame name id body).run m = outcome at frame ⊢
  cases frame with
  | refused _ => exact .of_isOverflow rfl h.within
  | failed ended =>
    rw [ended] at ran
    exact ⟨ran.within, ran.full⟩
  | untold ended _ =>
    rw [ended] at ran
    exact .of_isOverflow rfl ran.within
  | @finished m' ended =>
    rw [ended] at ran
    refine ⟨?_, ran.faultSite_eq, ?_⟩
    · show m'.stack.pop = stack
      rw [ran.stack_eq, popped]
    · refine Recorder.EntersWithin.appendEvent (r := m'.recorder) ran.within ?_
      rintro other depth ⟨⟩

end Machine

open Machine

/-- **A call never goes beyond the bound.**  The allowance is what the bound leaves on the stack;
the induction is on it, and it is used up exactly when the stack is full. -/
theorem upholds_shallow_callFunction (program : Program) (limit : Nat) {stack : Stack}
    (ne : stack.frames ≠ []) (fits : stack.depth ≤ max limit 1) (name : String) :
    (callFunction program limit (limit - stack.depth) name).Upholds (Shallow limit stack)
      fun fault m => m.Overfull limit fault := by
  have some_frame : 1 ≤ stack.depth := List.length_pos_iff.mpr ne
  generalize left : limit - stack.depth = allowance
  induction allowance generalizing stack name with
  | zero =>
    have calm := calmInvariant_shallow limit stack
    rw [callFunction]
    refine (calm.upholds (.record rfl)).bind fun _ => ?_
    refine (calm.upholds (.asksOrRaises fun m fault => m.isOverflow_of_callee)).bind fun id => ?_
    intro m shallow
    refine ⟨shallow.within, ?_⟩
    rintro k ⟨⟩
    have depth : m.siteOfFault.length = stack.depth := by
      simp [siteOfFault, shallow.faultSite_eq, shallow.stack_eq, Stack.names, Stack.depth]
    exact ⟨rfl, by omega⟩
  | succ allowance ih =>
    have calm := calmInvariant_shallow limit stack
    rw [callFunction]
    refine (calm.upholds (.record rfl)).bind fun _ => ?_
    refine (calm.upholds (.asksOrRaises fun m fault => m.isOverflow_of_callee)).bind fun id => ?_
    intro m shallow
    refine shallow.ends_inFrame ne (by omega) fun m' shallow' => ?_
    have depth : (m.entered name id).stack.depth = stack.depth + 1 := by
      show (m.stack.push _).depth = stack.depth + 1
      rw [shallow.stack_eq]
      rfl
    have calls := fun other =>
      ih (m.frames_entered_ne_nil name id) (by omega) other (by omega) (by omega)
    have inner := calmInvariant_shallow limit (m.entered name id).stack
    exact inner.ends_runBody calls program name id _ _ (inner.upholds (.record rfl) m' shallow')

theorem upholds_shallow_executeStatements (program : Program) (limit : Nat) {stack : Stack}
    (ne : stack.frames ≠ []) (fits : stack.depth ≤ max limit 1) (statements : List Statement) :
    (executeStatements program limit statements).Upholds (Shallow limit stack)
      fun fault m => m.Overfull limit fault := by
  induction statements with
  | nil => exact fun m shallow => shallow
  | cons s rest ih =>
    rw [executeStatements]
    refine Exec.Upholds.bind (fun m shallow => ?_) fun _ => ih
    have calls := upholds_shallow_callFunction program limit ne fits
    have ran := (calmInvariant_shallow limit stack).upholds_execute calls s m shallow
    rw [← shallow.stack_eq] at ran ⊢
    exact ran

theorem upholds_shallow_runScript (config : Config) (program : Program) :
    (runScript config program).Upholds
      (Shallow config.callDepthLimit (Machine.initial config).stack)
      fun fault m => m.Overfull config.callDepthLimit fault := by
  have calm := calmInvariant_shallow config.callDepthLimit (Machine.initial config).stack
  rw [runScript]
  refine (calm.upholds (.record rfl)).bind fun _ => ?_
  refine (calm.upholds (calm_hoist .script program.body)).bind fun _ => ?_
  exact upholds_shallow_executeStatements program _ (List.cons_ne_nil _ _) (Nat.le_max_right _ _) _

/-! ## Traces -/

/-- The report of a fault does not tell of a frame. -/
theorem Recorder.EntersWithin.halt {limit : Nat} {r : Recorder} (h : r.EntersWithin limit)
    (fault : Fault) (callStack : List String) : (r.halt fault callStack).EntersWithin limit := by
  intro s hs opens
  rcases Array.mem_push.mp hs with hs | rfl
  · exact h s hs opens
  · cases fault <;> exact nomatch opens

/-- What one run says about its own bound: a full stack is reported with the bound and with as many
names as it allows, in the only step that reports a fault; and no step tells of a frame beyond the
bound. -/
theorem runProgram_within_depth (config : Config) (program : Program) :
    let t := runProgram config program
    (∀ k, t.fault = some (.stackOverflow k) → k = config.callDepthLimit ∧
      ∃ last site, t.steps.toList = t.ongoing ++ [last] ∧ last.Reports (.stackOverflow k) site ∧
        site.length = max config.callDepthLimit 1) ∧
    ∀ s ∈ t.steps, s.kind = .createExecutionContext →
      ∃ depth ≤ config.callDepthLimit, s.field? "depth" = some (.nat depth) := by
  intro t
  have start : (Machine.initial config).Shallow config.callDepthLimit
      (Machine.initial config).stack := by
    refine ⟨rfl, rfl, ?_⟩
    intro s hs
    exact nomatch Array.not_mem_empty s hs
  have outcome := upholds_shallow_runScript config program _ start
  have ongoing : t.ongoing = _ := ongoing_runProgram config program
  rcases ended : (runScript config program).run (.initial config) with ⟨fault | _, m⟩
  · rw [ended] at outcome ongoing
    have full : m.Overfull config.callDepthLimit fault := outcome
    have stopped : t = _ := runProgram_of_fault ended
    rw [ongoing, stopped]
    refine ⟨?_, full.within.halt fault m.siteOfFault⟩
    rintro k ⟨⟩
    obtain ⟨limit_eq, length_eq⟩ := full.full k rfl
    obtain ⟨last, steps, -, reports⟩ := m.recorder.exists_report (.stackOverflow k) m.siteOfFault
    exact ⟨limit_eq, last, m.siteOfFault, steps, reports, length_eq⟩
  · rw [ended] at outcome
    have shallow : m.Shallow config.callDepthLimit (Machine.initial config).stack := outcome
    have finished : t = _ := runProgram_of_result ended
    rw [finished]
    exact ⟨fun k none => (nomatch none), shallow.within⟩

/-- **A smaller bound on the call stack only cuts the trace.**  Under two settings that differ in
nothing but the bound, the run with the smaller one leaves the same trace, unless it stops because
the stack is full.  If it does, it reports its own bound, the steps before the report are the first
steps of the other trace, and the report names as many frames as the bound allows, but at least that
of the script.  No step of the run tells of a frame beyond the bound. -/
theorem runProgram_cut_at_depth (config : Config) (program : Program) (depth depth' : Nat)
    (le : Config.callDepthLimit { config with maxCallDepth := depth } ≤
      Config.callDepthLimit { config with maxCallDepth := depth' }) :
    let limit := Config.callDepthLimit { config with maxCallDepth := depth }
    let short := runProgram { config with maxCallDepth := depth } program
    let long := runProgram { config with maxCallDepth := depth' } program
    ((∀ k, short.fault ≠ some (.stackOverflow k)) → short = long) ∧
    (∀ k, short.fault = some (.stackOverflow k) →
      k = limit ∧ short.ongoing <+: long.steps.toList ∧
      ∃ last site, short.steps.toList = short.ongoing ++ [last] ∧
        last.Reports (.stackOverflow k) site ∧ site.length = max limit 1) ∧
    ∀ s ∈ short.steps, s.kind = .createExecutionContext →
      ∃ d ≤ limit, s.field? "depth" = some (.nat d) := by
  intro limit short long
  obtain ⟨reported, within⟩ := runProgram_within_depth { config with maxCallDepth := depth } program
  have compared := shortOf_runScript config program le (.initial config)
  -- the state that a run starts in does not depend on the bound
  have ongoing : short.ongoing = _ :=
    ongoing_runProgram { config with maxCallDepth := depth } program
  have ongoing' : long.ongoing = _ :=
    ongoing_runProgram { config with maxCallDepth := depth' } program
  have whole : long.ongoing <+: long.steps.toList := ongoing_prefix_runProgram _ program
  have cut : short = long ∨
      (∃ k, short.fault = some (.stackOverflow k)) ∧ short.ongoing <+: long.ongoing := by
    rcases compared with ⟨same⟩ | ⟨fault, steps⟩
    · refine .inl ?_
      change (runScript _ program).run (.initial { config with maxCallDepth := depth }) =
        (runScript _ program).run (.initial { config with maxCallDepth := depth' }) at same
      show runProgram _ program = runProgram _ program
      rw [runProgram, runProgram, same]
    · refine .inr ⟨⟨limit, ?_⟩, ?_⟩
      · have stopped := runProgram_of_fault (Prod.ext fault rfl)
        show (runProgram _ program).fault = _
        rw [stopped]
      · rw [ongoing, ongoing']
        exact steps
  refine ⟨fun notFull => ?_, fun k full => ⟨(reported k full).1, ?_, (reported k full).2⟩, within⟩
  · rcases cut with same | ⟨⟨k, full⟩, -⟩
    · exact same
    · exact absurd full (notFull k)
  · rcases cut with same | ⟨-, steps⟩
    · rw [same]
      exact whole
    · exact steps.trans whole

/-- A script whose function calls itself: `function f() { f(); } f();`. -/
def endlessCall : Program where
  body := [.functionDeclaration ⟨0, 0⟩ ⟨"f", ⟨0, 0⟩⟩ 0,
    .expression ⟨0, 0⟩ (.call ⟨0, 0⟩ (.identifier ⟨"f", ⟨0, 0⟩⟩) [])]
  functions := #[⟨⟨0, 0⟩, none, [],
    [.expression ⟨0, 0⟩ (.call ⟨0, 0⟩ (.identifier ⟨"f", ⟨0, 0⟩⟩) [])]⟩]

/-- With room for two frames, the first call is made and the second is not; with room for four, the
same steps come first. -/
theorem endlessCall_cut_at_depth :
    let short := runProgram { maxCallDepth := 2 } endlessCall
    let long := runProgram { maxCallDepth := 4 } endlessCall
    short.fault = some (.stackOverflow 2) ∧ short.ongoing <+: long.steps.toList ∧
      ∃ last site, short.steps.toList = short.ongoing ++ [last] ∧
        last.Reports (.stackOverflow 2) site ∧ site.length = 2 := by
  have full : (runProgram { maxCallDepth := 2 } endlessCall).fault = some (.stackOverflow 2) := by
    decide
  obtain ⟨-, cut, -⟩ := runProgram_cut_at_depth {} endlessCall 2 4 (by decide)
  obtain ⟨-, steps, last, site, ends, reports, length⟩ := cut 2 full
  exact ⟨full, steps, last, site, ends, reports, length⟩

end ScriptTrace
