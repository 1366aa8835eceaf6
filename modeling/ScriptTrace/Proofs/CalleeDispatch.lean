import ScriptTrace.Proofs.References
import ScriptTrace.Proofs.Termination

/-!
# Which function a call runs

The interpreter has two name spaces.  The table of functions maps names to functions of the program,
and the scopes map names to values, which may be functions too.  A call of a name asks the table
first and a variable second.  This file says what that comes to.

## The table

Only the hoisting of a script stores functions, and it stores every function that the script
declares, in order.  So once it has ended, the table maps a name to the last function that stands
under it directly in the script (`function?_of_hoist`); and since no statement stores a function, it
stays so in every later state (`Exec.Orderly.functions_of_mem_states`).

## The call

Whether a name is in the table is therefore a matter of the program alone.  If it is, variables of
that name play no part.  If it is not, the nearest variable of that name on the call stack decides:
without a value that is a function, the call ends with a fault right after the step that announces
it (`Machine.StopsEarly`); with one, the function is in the table, because values that are functions
come from there.

A call that finds a function runs its body in a frame with the name that was called
(`CallRuns`).  Inside the body the same is true of the calls that it makes: the statements of the
body are executed just as those of the script are (`run_executeAll`).

* `lastDeclared?`: the function that a script declares last under a name.
* `CallRuns`: a call that runs the body of a function.
* `parsed_callees_are_fixed`: the table and all calls, in every state after the hoisting.
-/

namespace ScriptTrace

/-! ## The last declaration of a name -/

/-- The function that a statement declares under a name. -/
def Statement.declares? (name : String) : Statement → Option FunctionId
  | .functionDeclaration _ declared id => if declared.name = name then some id else none
  | _ => none

/-- The function that statements declare last under a name.  Nested statements are not searched. -/
def lastDeclared? (statements : List Statement) (name : String) : Option FunctionId :=
  statements.reverse.findSome? (Statement.declares? name)

theorem lastDeclared?_cons (s : Statement) (rest : List Statement) (name : String) :
    lastDeclared? (s :: rest) name = (lastDeclared? rest name).or (s.declares? name) := by
  simp [lastDeclared?, List.findSome?_append]

/-! ## The table of functions -/

/-- A result of two executions one after the other comes from a result of each. -/
theorem Exec.exists_of_run_bind_eq_ok {α β : Type} {x : Exec α} {next : α → Exec β} {m m' : Machine}
    {b : β} (ended : (x >>= next).run m = (.ok b, m')) :
    ∃ a m₁, x.run m = (.ok a, m₁) ∧ (next a).run m₁ = (.ok b, m') := by
  rcases first : x.run m with ⟨fault | a, m₁⟩
  · rw [run_bind_of_error first] at ended
    exact nomatch ended
  · rw [run_bind_of_ok first] at ended
    exact ⟨a, m₁, rfl, ended⟩

theorem eq_of_run_record_eq_ok {event : Event} {m m' : Machine}
    (ended : (record event).run m = (.ok (), m')) : m' = (Effect.record event).apply m := by
  cases room : m.recorder.reached? with
  | none =>
    rw [run_record_of_room room] at ended
    exact (Prod.mk.inj ended).2.symm
  | some limit =>
    rw [run_record_of_reached room] at ended
    exact nomatch ended

/-- A hoisted function is in the table under its name, and all other entries are as before. -/
theorem function?_of_hoistFunction {name : String} {id : FunctionId} {m m' : Machine}
    (ended : (hoistFunction name id).run m = (.ok (), m')) (key : String) :
    m'.heap.function? key = if name = key then some id else m.heap.function? key := by
  rw [hoistFunction] at ended
  obtain ⟨_, m₁, told, ended⟩ := Exec.exists_of_run_bind_eq_ok ended
  rw [Exec.run_perform_bind, Exec.run_asks_bind] at ended
  obtain ⟨_, m₂, registered, ended⟩ := Exec.exists_of_run_bind_eq_ok ended
  rw [eq_of_run_record_eq_ok told] at registered
  rw [eq_of_run_record_eq_ok registered] at ended
  obtain ⟨-, rfl⟩ := Prod.mk.inj ended
  exact Table.get?_put m.heap.functions key name id

/-- Variables are bound without a change to the table. -/
theorem function?_of_hoistVariables {kind : DeclarationKind} {declarators : List Declarator}
    {m m' : Machine} (ended : (hoistVariables kind declarators).run m = (.ok (), m')) (key : String) :
    m'.heap.function? key = m.heap.function? key := by
  induction declarators generalizing m with
  | nil =>
    obtain ⟨-, rfl⟩ := Prod.mk.inj ended
    rfl
  | cons declarator rest ih =>
    rw [hoistVariables, Exec.run_asks_bind] at ended
    obtain ⟨_, m₁, told, ended⟩ := Exec.exists_of_run_bind_eq_ok ended
    rw [Exec.run_perform_bind] at ended
    rw [ih ended, eq_of_run_record_eq_ok told]
    rfl

/-- **After the hoisting of a script, a name stands for the last function declared under it.** -/
theorem function?_of_hoist {statements : List Statement} {m m' : Machine}
    (ended : (hoist .script statements).run m = (.ok (), m')) (key : String) :
    m'.heap.function? key = (lastDeclared? statements key).or (m.heap.function? key) := by
  induction statements generalizing m with
  | nil =>
    obtain ⟨-, rfl⟩ := Prod.mk.inj ended
    rfl
  | cons s rest ih =>
    rw [lastDeclared?_cons, Option.or_assoc]
    match s with
    | .functionDeclaration span name id =>
      rw [hoist, if_pos rfl] at ended
      obtain ⟨_, m₁, first, ended⟩ := Exec.exists_of_run_bind_eq_ok ended
      rw [ih ended, function?_of_hoistFunction first, Statement.declares?]
      split <;> rfl
    | .variables declaration =>
      rw [hoist] at ended
      obtain ⟨_, m₁, first, ended⟩ := Exec.exists_of_run_bind_eq_ok ended
      rw [ih ended, function?_of_hoistVariables first]
      rfl
    | .expression _ _ | .block _ _ | .conditional _ _ _ _ | .whileLoop _ _ _ | .forLoop _ _ _ _ _
    | .returns _ _ | .empty _ =>
      simp only [hoist] at ended
      rw [ih ended]
      rfl

/-- The opening of a script hands on its statements, with all functions in the table. -/
theorem function?_of_openScript {config : Config} {program : Program} {m m' : Machine}
    {statements : List Statement}
    (opened : (openScript config program).run m = (.ok statements, m')) :
    statements = program.body ∧ ∀ name,
      m'.heap.function? name = (lastDeclared? program.body name).or (m.heap.function? name) := by
  obtain ⟨_, m₁, told, opened⟩ := Exec.exists_of_run_bind_eq_ok opened
  obtain ⟨_, m₂, ended, opened⟩ := Exec.exists_of_run_bind_eq_ok opened
  obtain ⟨given, rfl⟩ := Prod.mk.inj opened
  refine ⟨(Except.ok.inj given).symm, fun name => ?_⟩
  rw [function?_of_hoist ended, eq_of_run_record_eq_ok told]
  rfl

/-- An effect of a statement, or one that belongs to a frame or a step, stores no function. -/
theorem Exec.Orderly.meets_functions {α : Type} {x : Exec α} (h : x.Orderly Effect.OfStatement)
    {functions : Table FunctionId} {m : Machine} (start : m.heap.functions = functions) :
    x.Meets (fun m => m.heap.functions = functions) (fun _ _ => True) (fun _ _ => True) m := by
  induction h generalizing m with
  | done _ => exact .done start trivial
  | raise _ _ => exact .raise start trivial
  | look _ _ ih => exact .look (ih m start)
  | record event _ => exact (Meets.record start start fun _ => trivial).mono fun _ _ _ => trivial
  | perform effect isLocal may =>
    refine (Meets.perform start ?_).mono fun _ _ _ => trivial
    cases may with
    | ofExpression write => cases write <;> exact start
    | bind _ _ => exact start
    | enter _ _ => exact start
  | bind _ _ first each => exact .bind (first start) fun a _ here _ => each a here
  | inFrame name id _ _ each =>
    rw [ScriptTrace.inFrame]
    refine .bind (.asks start _) fun depth m₁ here _ => ?_
    refine .bind (.record here here fun _ => trivial) ?_
    rintro _ _ here rfl
    refine .bind (.asks here _) fun scope m₂ here _ => ?_
    refine .bind (.asks here _) fun outer m₃ here _ => ?_
    refine .bind (.perform here here) ?_
    rintro _ _ here rfl
    refine .attempt (each scope outer here) (fun _ m₄ here _ => ?_) fun fault m₄ here => ?_
    · refine .bind (.perform here here) ?_
      rintro _ _ here rfl
      refine .bind (.asks here _) fun depth m₅ here _ => ?_
      exact (Meets.record here here fun _ => trivial).mono fun _ _ _ => trivial
    · refine .bind (.perform here here) ?_
      rintro _ _ here rfl
      refine .bind (.perform here here) ?_
      rintro _ _ here rfl
      exact .raise here rfl

/-- **No statement changes the table of functions**, in any state on its way. -/
theorem Exec.Orderly.functions_of_mem_states {α : Type} {x : Exec α}
    (h : x.Orderly Effect.OfStatement) {m s : Machine} (hs : s ∈ x.states m) :
    s.heap.functions = m.heap.functions :=
  (h.meets_functions rfl).always_of_mem s hs

/-! ## Calls -/

/-- The state after the step that announces a call. -/
def Machine.announced (m : Machine) (name : String) : Machine :=
  (Effect.record (.prepareCall name)).apply m

/-- The body of a function in the frame that has just been put on the stack, under a bound on the
call stack. -/
def functionBody (program : Program) (limit : Nat) (name : String) (f : FunctionDefinition)
    (scope outer : ScopeId) : Exec Unit := do
  record (.createScope name scope outer)
  hoist .functionBody f.body
  executeStatements program limit f.body

/-- How the call of a name that stands for the function `id` ends, from the state after it has been
announced. -/
inductive CallRuns (program : Program) (limit : Nat) (name : String) (id : FunctionId)
    (m : Machine) : Except Fault Unit × Machine → Prop
  /-- The stack is full. -/
  | overflow (full : limit ≤ m.stack.depth) :
      CallRuns program limit name id m (.error (.stackOverflow limit), m)
  /-- There is no room for the step that tells of the frame. -/
  | refused {steps : Nat} (room : m.stack.depth < limit) (full : m.recorder.reached? = some steps) :
      CallRuns program limit name id m (.error (.stepLimit steps), m)
  /-- The body of the function runs in a frame with the name that was called, and then the frame is
  left. -/
  | body {f : FunctionDefinition} {outcome : Except Fault Unit} {m' : Machine}
      (there : program.function? id = some f) (room : m.stack.depth < limit)
      (free : m.recorder.reached? = none)
      (ended : (functionBody program limit name f m.scopes.size m.currentScope).run
        (m.entered name id) = (outcome, m')) :
      CallRuns program limit name id m ((leaveFrame name outcome).run m')

/-- A call ends with a fault right after the step that announces it, and passes through no other
state. -/
structure Machine.StopsEarly (m : Machine) (call : Exec Unit) (name : String) (fault : Fault) :
    Prop where
  run_eq : call.run m = (.error fault, m.announced name)
  states_eq : call.states m = [m, m.announced name]

/-- The statements of a body are executed as those of a script are, with the allowance that the
stack leaves.  Every statement leaves the stack as it found it, so the allowance stays the same. -/
theorem run_executeAll (program : Program) (limit : Nat) (statements : List Statement) {m : Machine}
    (ne : m.stack.frames ≠ []) :
    (executeAll (callFunction program limit (limit - m.stack.depth)) statements).run m =
      (executeStatements program limit statements).run m := by
  induction statements generalizing m with
  | nil => rfl
  | cons s rest ih =>
    have stack := (orderly_executeStatement program limit s).stack_run ne
    have first : (execute (callFunction program limit (limit - m.stack.depth)) s).run m =
        (executeStatement program limit s).run m := rfl
    rw [executeAll, executeStatements]
    rcases ended : (executeStatement program limit s).run m with ⟨fault | _, m'⟩
    · rw [Exec.run_bind_of_error ended, Exec.run_bind_of_error (first.trans ended)]
    · rw [ended] at stack
      rw [Exec.run_bind_of_ok ended, Exec.run_bind_of_ok (first.trans ended), ← stack]
      exact ih (stack ▸ ne)

theorem run_runBody {program : Program} {id : FunctionId} {f : FunctionDefinition}
    (there : program.function? id = some f) (limit : Nat) (name : String) (scope outer : ScopeId)
    {m : Machine} (ne : m.stack.frames ≠ []) :
    (runBody program (callFunction program limit (limit - m.stack.depth)) name id scope outer).run m =
      (functionBody program limit name f scope outer).run m := by
  rw [runBody, functionBody, there]
  rcases told : (record (.createScope name scope outer)).run m with ⟨fault | _, m₁⟩
  · rw [Exec.run_bind_of_error told, Exec.run_bind_of_error told]
  have stack : m₁.stack = m.stack := by
    rw [eq_of_run_record_eq_ok told]
    rfl
  have kept := (calm_hoist .functionBody f.body).stack_run m₁
  rw [Exec.run_bind_of_ok told, Exec.run_bind_of_ok told]
  rcases hoisted : (hoist .functionBody f.body).run m₁ with ⟨fault | _, m₂⟩
  · rw [Exec.run_bind_of_error hoisted, Exec.run_bind_of_error hoisted]
  · rw [hoisted, stack] at kept
    rw [Exec.run_bind_of_ok hoisted, Exec.run_bind_of_ok hoisted, ← kept]
    exact run_executeAll program limit f.body (kept ▸ ne)

section

variable (program : Program) (limit : Nat) (name : String) {m : Machine}
variable (room : m.recorder.reached? = none)

include room

theorem run_announceCall : (announceCall name).run m = (m.callee name, m.announced name) := by
  rw [announceCall, Exec.run_bind_of_ok (run_record_of_room room), Exec.run_asksOrRaises]
  rfl

/-- Where a name stands for no function, its call stops early. -/
theorem stopsEarly_executeCall {fault : Fault} (uncalled : m.callee name = .error fault) :
    m.StopsEarly (executeCall program limit name) name fault where
  run_eq := by
    have announced := run_announceCall name room
    rw [uncalled] at announced
    show (callFunction program limit (limit - m.stack.depth) name).run m = _
    rw [callFunction_eq, Exec.run_bind_of_error announced]
  states_eq := by
    have uncalled' : ((Effect.record (.prepareCall name)).apply m).callee name = .error fault :=
      uncalled
    show (callFunction program limit (limit - m.stack.depth) name).states m = _
    simp only [callFunction.eq_def, record, Exec.perform, Exec.asksOrRaises, bind, Exec.bind,
      Exec.states, room, uncalled']
    rfl

/-- Where a name stands for a function, its call runs the body of that function. -/
theorem callRuns_executeCall {id : FunctionId} {f : FunctionDefinition} (called : m.callee name = .ok id)
    (there : program.function? id = some f) :
    CallRuns program limit name id (m.announced name) ((executeCall program limit name).run m) := by
  have announced := run_announceCall name room
  rw [called] at announced
  show CallRuns program limit name id (m.announced name)
    ((callFunction program limit (limit - m.stack.depth) name).run m)
  rw [callFunction_eq, Exec.run_bind_of_ok announced]
  cases left : limit - m.stack.depth with
  | zero => exact .overflow (Nat.le_of_sub_eq_zero left)
  | succ allowance =>
    have free : (m.announced name).stack.depth < limit := by
      show m.stack.depth < limit
      omega
    -- inside the frame the stack leaves one less
    have inner : allowance = limit - ((m.announced name).entered name id).stack.depth := by
      show allowance = limit - (m.stack.depth + 1)
      omega
    cases reached : (m.announced name).recorder.reached? with
    | some steps =>
      have refused : (inFrame name id
          (runBody program (callFunction program limit allowance) name id)).run (m.announced name) =
          (.error (.stepLimit steps), m.announced name) := by
        rw [inFrame, Exec.run_asks_bind, Exec.run_bind_of_error (run_record_of_reached reached)]
      dsimp only
      rw [refused]
      exact .refused free reached
    | none =>
      dsimp only
      rw [run_inFrame_of_room name id _ reached, inner,
        run_runBody there limit name _ _ (Machine.frames_entered_ne_nil _ name id)]
      exact .body there free reached rfl

end

/-- What a call of a name finds that is not in the table: the nearest variable of the name on the
call stack decides. -/
theorem Machine.Linked.callee_of_unstored {m : Machine} (h : m.Linked) {name : String}
    (unstored : m.heap.function? name = none) :
    m.callee name =
      match m.topmostBinding? name with
      | none => .error (.notDefined name)
      | some binding =>
        match binding.initialized, binding.value with
        | false, _ => .error (.uninitialized name)
        | true, some (.function target) =>
          match m.heap.function? target with
          | some id => .ok id
          | none => .error (.notAFunction name)
        | true, _ => .error (.notAFunction name) := by
  rw [callee, unstored, h.lookup_eq]
  cases m.topmostBinding? name with
  | none => rfl
  | some binding =>
    obtain ⟨initialized, value⟩ := binding
    cases initialized with
    | false => rfl
    | true =>
      cases value with
      | none => rfl
      | some value => cases value <;> rfl

/-! ## Every state after the hoisting of a parsed script -/

/-- **Which function a call runs is fixed by the hoisting of the script.**  Let the hoisting of a
parsed script end with a result.  Then the table of functions maps every name to the last function
that the script declares under it directly, and to none if there is no such declaration; and in
every later state of the run the table is the same.

So in every later state, a call of a declared name runs the body of its last declaration, whatever
variables of that name there are on the call stack.  A call of any other name goes by the nearest
variable of that name on the call stack.  If there is none, or it is not initialized, or it holds no
function, the call stops with the fault that says so, before any frame is there and with no step but
the one that announces it.  If it holds a function, the call runs the body of the last declaration
of that function, in a frame with the name that was called.  In all cases the call may be stopped
first by the limit on steps or by the bound on the call stack. -/
theorem parsed_callees_are_fixed (config : Config) (source : String) (program : Program)
    (parsed : parseScript source = .ok program) (statements : List Statement) (hoisted : Machine)
    (opened : (openScript config program).run (.initial config) = (.ok statements, hoisted)) :
    (∀ name, hoisted.heap.function? name = lastDeclared? program.body name) ∧
    ∀ m ∈ (executeStatements program config.callDepthLimit program.body).states hoisted,
      m.heap.functions = hoisted.heap.functions ∧
      ∀ span callSpan identifier arguments,
        let name := identifier.name
        let call := executeStatement program config.callDepthLimit
          (.expression span (.call callSpan (.identifier identifier) arguments))
        let runs := fun id =>
          CallRuns program config.callDepthLimit name id (m.announced name) (call.run m)
        (∀ steps, m.recorder.reached? = some steps → call.run m = (.error (.stepLimit steps), m)) ∧
        (m.recorder.reached? = none →
          (∀ id, lastDeclared? program.body name = some id → runs id) ∧
          (lastDeclared? program.body name = none →
            (m.topmostBinding? name = none → m.StopsEarly call name (.notDefined name)) ∧
            ∀ binding, m.topmostBinding? name = some binding →
              (binding.initialized = false → m.StopsEarly call name (.uninitialized name)) ∧
              (binding.initialized = true →
                (∀ target, binding.value = some (.function target) →
                  ∃ id, lastDeclared? program.body target = some id ∧ runs id) ∧
                ((∀ target, binding.value ≠ some (.function target)) →
                  m.StopsEarly call name (.notAFunction name))))) := by
  have declared := parseScript_declaresBelow parsed
  obtain ⟨rfl, filled⟩ := function?_of_openScript opened
  have table : ∀ name, hoisted.heap.function? name = lastDeclared? program.body name :=
    fun name => (filled name).trans Option.or_none
  refine ⟨table, fun m later => ?_⟩
  have reached : m ∈ (runScript config program).states (.initial config) := by
    rw [runScript_eq]
    show m ∈ ((openScript config program).bind _).states _
    rw [Exec.bind_eq_attempt]
    refine Exec.mem_states_attempt_right ?_
    rw [opened]
    exact later
  have linked := Machine.linked_of_mem_states reached
  have grounded := (meets_runScript config declared).always_of_mem m reached
  have functions : m.heap.functions = hoisted.heap.functions :=
    (orderly_executeStatements program _ _).functions_of_mem_states later
  have stored : ∀ name, m.heap.function? name = lastDeclared? program.body name := by
    intro name
    rw [← table, Heap.function?, Heap.function?, functions]
  refine ⟨functions, fun span callSpan identifier arguments => ⟨fun steps full => ?_, fun room => ?_⟩⟩
  · show (callFunction program config.callDepthLimit _ identifier.name).run m = _
    rw [callFunction.eq_def, Exec.run_bind_of_error (run_record_of_reached full)]
  have runs {id : FunctionId} (called : m.callee identifier.name = .ok id) := by
    have inside := grounded.function_lt_of_callee called
    exact callRuns_executeCall program config.callDepthLimit identifier.name room called
      (Array.getElem?_eq_getElem inside)
  have stops {fault : Fault} (uncalled : m.callee identifier.name = .error fault) :=
    stopsEarly_executeCall program config.callDepthLimit identifier.name room uncalled
  -- what a call of a name that is not declared finds
  have finds (undeclared : lastDeclared? program.body identifier.name = none) :=
    linked.callee_of_unstored ((stored identifier.name).trans undeclared)
  refine ⟨fun id last => runs ?_, fun undeclared => ⟨fun unbound => stops ?_, fun binding bound => ?_⟩⟩
  · rw [Machine.callee, stored, last]
  · rw [finds undeclared, unbound]
  refine ⟨fun late => stops ?_, fun initialized => ⟨fun target held => ?_, fun other => stops ?_⟩⟩
  · simp only [finds undeclared, bound, late]
  · have read : m.lookup identifier.name = .ok (.function target) := by
      rw [linked.lookup_eq_ok_iff]
      exact ⟨binding, bound, initialized, held ▸ rfl⟩
    have has : (m.heap.function? target).isSome := grounded.has_of_lookup read
    obtain ⟨id, there⟩ := Option.isSome_iff_exists.mp has
    refine ⟨id, (stored target).symm.trans there, runs ?_⟩
    simp only [finds undeclared, bound, initialized, held, there]
  · simp only [finds undeclared, bound, initialized]

/-- A script that declares a function twice, keeps it in a variable and calls it; the body of the
second declaration hides the name behind a variable of its own.  In the state in which it is hidden,
the name and the variable still call the second declaration. -/
theorem hiddenCallee_is_fixed :
    ∃ program statements hoisted m,
      parseScript "function f(){}function f(){f=null;}var g=f;f();" = .ok program ∧
      (openScript {} program).run (.initial {}) = (.ok statements, hoisted) ∧
      hoisted.heap.function? "f" = some 1 ∧
      m ∈ (executeStatements program (Config.callDepthLimit {}) program.body).states hoisted ∧
      m.topmostBinding? "f" = some (.holding .null) ∧
      ∀ name ∈ ["f", "g"],
        CallRuns program (Config.callDepthLimit {}) name 1 (m.announced name)
          ((executeStatement program (Config.callDepthLimit {})
            (.expression ⟨0, 0⟩ (.call ⟨0, 0⟩ (.identifier ⟨name, ⟨0, 0⟩⟩) []))).run m) := by
  obtain ⟨program, parsed, found⟩ := exists_ok_of_toOption_map
    (x := parseScript "function f(){}function f(){f=null;}var g=f;f();")
    (f := fun program =>
      let opened := (openScript {} program).run (.initial {})
      decide (opened.1.isOk = true ∧ lastDeclared? program.body "f" = some 1 ∧
        lastDeclared? program.body "g" = none ∧
        ∃ m ∈ (executeStatements program (Config.callDepthLimit {}) program.body).states opened.2,
          m.recorder.reached? = none ∧ m.topmostBinding? "f" = some (.holding .null) ∧
            m.topmostBinding? "g" = some (.holding (.function "f"))))
    (b := true) (by decide +kernel)
  obtain ⟨ok, second, undeclared, m, later, room, hidden, kept⟩ := of_decide_eq_true found
  rcases opened : (openScript {} program).run (.initial {}) with ⟨fault | statements, hoisted⟩
  · rw [opened] at ok
    exact nomatch ok
  rw [opened] at later
  obtain ⟨table, every⟩ := parsed_callees_are_fixed {} _ program parsed statements hoisted opened
  refine ⟨program, statements, hoisted, m, parsed, opened, (table "f").trans second, later, hidden,
    ?_⟩
  have calls (name : String) := (every m later).2 ⟨0, 0⟩ ⟨0, 0⟩ ⟨name, ⟨0, 0⟩⟩ []
  intro name listed
  rcases List.mem_pair.mp listed with rfl | rfl
  · exact ((calls "f").2 room).1 1 second
  · obtain ⟨-, held⟩ := ((calls "g").2 room).2 undeclared
    obtain ⟨id, last, runs⟩ := ((held _ kept).2 rfl).1 "f" rfl
    rw [← Option.some.inj (second.symm.trans last)] at runs
    exact runs

end ScriptTrace
