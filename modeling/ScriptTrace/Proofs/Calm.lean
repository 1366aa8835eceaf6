import ScriptTrace.Proofs.CallStack

/-!
# Executions without calls

Only the call of a name puts frames on the stack.  Everything else that a script does is *calm*: it
writes to the heap and to the scope of the running frame, it records events that do not mark a
frame, and no fault of it is that the stack has too many frames.

This cuts a statement about runs in two.  For calm executions it is enough to look at single effects
(`Exec.Calm.run_of_forall`); what is left is the call of a name, where frames come and go.  The two
parts are joined again once and for all: if the call of a name upholds something that calm effects
keep, so do the statements of a body (`Exec.CalmInvariant.upholds_executeAll`).

* `Exec.Calm`: the predicate, with one lemma for each function of the interpreter that makes no
  call.
* `Statement.calledName?`: the name that a statement calls; a statement that calls none is calm.
* `Exec.Upholds`: an invariant that comes out of an execution as it went in, or else a fault in a
  state with a property of its own.
-/

namespace ScriptTrace

/-! ## Calm executions -/

/-- Whether an effect neither moves a frame nor tells of one. -/
def Effect.isCalm : Effect → Bool
  | .record event => !event.marksFrame
  | .storeFunction _ _ | .bind _ _ | .allocate | .setProperty _ _ _ => true
  | .enter _ _ | .leave | .noteFault => false

theorem Effect.stack_apply_of_isCalm {effect : Effect} (h : effect.isCalm = true) (m : Machine) :
    (effect.apply m).stack = m.stack := by
  cases effect with
  | enter _ _ => nomatch h
  | leave => nomatch h
  | _ => rfl

theorem Effect.faultSite_apply_of_isCalm {effect : Effect} (h : effect.isCalm = true)
    (m : Machine) : (effect.apply m).faultSite = m.faultSite := by
  cases effect with
  | noteFault => nomatch h
  | _ => rfl

/-- Whether a fault is that the stack has too many frames. -/
def Fault.isOverflow : Fault → Bool
  | .stackOverflow _ => true
  | _ => false

namespace Exec

variable {α β : Type}

/-- An execution all of whose effects are calm and whose faults are not those of the stack. -/
def Calm : Exec α → Prop
  | .done _ => True
  | .raise fault => fault.isOverflow = false
  | .look next => ∀ m, (next m).Calm
  | .act effect next => effect.isCalm = true ∧ next.Calm

namespace Calm

theorem bind {x : Exec α} {next : α → Exec β} (first : x.Calm) (each : ∀ a, (next a).Calm) :
    (x >>= next).Calm := by
  show (x.bind next).Calm
  induction x with
  | done result => exact each result
  | raise fault => exact first
  | look rest ih => exact fun m => ih m (first m)
  | act effect rest ih => exact ⟨first.1, ih first.2⟩

theorem asks (f : Machine → α) : (Exec.asks f).Calm :=
  fun _ => trivial

theorem asksOrRaises {f : Machine → Except Fault α}
    (faults : ∀ m fault, f m = .error fault → fault.isOverflow = false) :
    (Exec.asksOrRaises f).Calm := by
  intro m
  dsimp only
  cases answer : f m with
  | ok result => exact trivial
  | error fault => exact faults m fault answer

theorem perform {effect : Effect} (calm : effect.isCalm = true) : (Exec.perform effect).Calm :=
  ⟨calm, trivial⟩

theorem record {event : Event} (unmarked : event.marksFrame = false) :
    (ScriptTrace.record event).Calm := by
  have calm : (Effect.record event).isCalm = true := by simp [Effect.isCalm, unmarked]
  intro m
  dsimp only
  cases m.recorder.reached? with
  | some limit => exact rfl
  | none => exact perform calm

/-- What calm effects keep holds in every state of a calm execution. -/
theorem forall_states_of_forall {x : Exec α} (h : x.Calm) {P : Machine → Prop}
    (keeps : ∀ (effect : Effect) (m : Machine), effect.isCalm = true → P m → P (effect.apply m))
    {m : Machine} (start : P m) : ∀ s ∈ x.states m, P s := by
  induction x generalizing m with
  | done _ =>
    intro s hs
    rwa [List.mem_singleton.mp hs]
  | raise _ =>
    intro s hs
    rwa [List.mem_singleton.mp hs]
  | look rest ih => exact ih m (h m) start
  | act effect rest ih =>
    intro s hs
    rcases List.mem_cons.mp hs with rfl | hs
    · exact start
    · exact ih h.2 (keeps effect m h.1 start) s hs

/-- What calm effects keep holds at the end of a calm execution, with a result or with a fault. -/
theorem run_of_forall {x : Exec α} (h : x.Calm) {P : Machine → Prop}
    (keeps : ∀ (effect : Effect) (m : Machine), effect.isCalm = true → P m → P (effect.apply m))
    {m : Machine} (start : P m) : P (x.run m).2 :=
  h.forall_states_of_forall keeps start _ (x.run_mem_states m)

theorem isOverflow_eq {x : Exec α} (h : x.Calm) {m m' : Machine} {fault : Fault}
    (ended : x.run m = (.error fault, m')) : fault.isOverflow = false := by
  induction x generalizing m with
  | done _ => exact nomatch ended
  | raise other =>
    have same : other = fault := Except.error.inj (Prod.mk.inj ended).1
    exact same ▸ h
  | look rest ih => exact ih m (h m) ended
  | act effect rest ih => exact ih h.2 ended

end Calm

end Exec

/-! ## What the state answers -/

theorem Machine.isOverflow_of_lookup {m : Machine} {name : String} {fault : Fault}
    (h : m.lookup name = .error fault) : fault.isOverflow = false := by
  rw [Machine.lookup] at h
  split at h
  · simp only [Except.error.injEq] at h
    simp [← h, Fault.isOverflow]
  · split at h
    · simp only [Except.error.injEq] at h
      simp [← h, Fault.isOverflow]
    · cases h

theorem Machine.isOverflow_of_callee {m : Machine} {name : String} {fault : Fault}
    (h : m.callee name = .error fault) : fault.isOverflow = false := by
  rw [Machine.callee] at h
  split at h
  · cases h
  · split at h
    · rename_i looked
      simp only [Except.error.injEq] at h
      exact h ▸ Machine.isOverflow_of_lookup looked
    · split at h
      · cases h
      · simp only [Except.error.injEq] at h
        simp [← h, Fault.isOverflow]
    · simp only [Except.error.injEq] at h
      simp [← h, Fault.isOverflow]

/-! ## The interpreter without calls -/

mutual

theorem calm_evaluate : ∀ e : Expression, (evaluate e).Calm
  | .literal _ value => by
    rw [evaluate]
    exact trivial
  | .identifier name => by
    rw [evaluate]
    exact .asksOrRaises fun m fault => m.isOverflow_of_lookup
  | .object _ properties => by
    rw [evaluate]
    refine .bind (.asks _) fun id => ?_
    refine .bind (.perform rfl) fun _ => ?_
    refine .bind (.record rfl) fun _ => ?_
    exact .bind (calm_fillObject id properties) fun _ => trivial
  | .member _ base property => by
    rw [evaluate]
    refine .bind (calm_evaluate base) fun object => ?_
    exact .bind (.record rfl) fun _ => .asks _
  | .array _ _ | .assignVariable _ _ _ | .assignMember _ _ _ _ _ | .call _ _ _ | .function _ _
  | .unary _ _ _ | .binary _ _ _ _ => by
    simp only [evaluate]
    exact trivial

theorem calm_fillObject (id : ObjectId) :
    ∀ properties : List (Property Expression), (fillObject id properties).Calm
  | [] => by
    rw [fillObject]
    exact trivial
  | ⟨_, .name key, value⟩ :: rest => by
    rw [fillObject]
    refine .bind (calm_evaluate value) fun value => ?_
    refine .bind (.perform rfl) fun _ => ?_
    refine .bind (.asks _) fun shown => ?_
    exact .bind (.record rfl) fun _ => calm_fillObject id rest
  | ⟨_, .str _, _⟩ :: rest | ⟨_, .num _, _⟩ :: rest => by
    simp only [fillObject]
    exact calm_fillObject id rest

end

theorem calm_hoistFunction (name : String) (id : FunctionId) : (hoistFunction name id).Calm := by
  rw [hoistFunction]
  refine .bind (.record rfl) fun _ => ?_
  refine .bind (.perform rfl) fun _ => ?_
  refine .bind (.asks _) fun scope => ?_
  exact .bind (.record rfl) fun _ => .perform rfl

theorem calm_hoistVariables (kind : DeclarationKind) (declarators : List Declarator) :
    (hoistVariables kind declarators).Calm := by
  induction declarators with
  | nil =>
    rw [hoistVariables]
    exact trivial
  | cons declarator rest ih =>
    rw [hoistVariables]
    refine .bind (.asks _) fun scope => ?_
    refine .bind (.record rfl) fun _ => ?_
    exact .bind (.perform rfl) fun _ => ih

theorem calm_hoist (mode : HoistMode) (statements : List Statement) :
    (hoist mode statements).Calm := by
  induction statements with
  | nil =>
    rw [hoist]
    exact trivial
  | cons statement rest ih =>
    cases statement with
    | functionDeclaration span name id =>
      rw [hoist]
      split
      · exact .bind (calm_hoistFunction name.name id) fun _ => ih
      · exact ih
    | «variables» declaration =>
      rw [hoist]
      exact .bind (calm_hoistVariables _ _) fun _ => ih
    | _ =>
      simp only [hoist]
      exact ih

theorem calm_declare (kind : DeclarationKind) (declarators : List Declarator) :
    (declare kind declarators).Calm := by
  induction declarators with
  | nil =>
    rw [declare]
    exact trivial
  | cons declarator rest ih =>
    obtain ⟨_, name, init⟩ := declarator
    cases init with
    | none =>
      rw [declare]
      exact ih
    | some init =>
      rw [declare]
      refine .bind (calm_evaluate init) fun value => ?_
      refine .bind (.asks _) fun shown => ?_
      refine .bind (.record rfl) fun _ => ?_
      exact .bind (.perform rfl) fun _ => ih

theorem calm_assignVariable (name : String) (right : Expression) :
    (assignVariable name right).Calm := by
  rw [assignVariable]
  refine .bind (calm_evaluate right) fun value => ?_
  refine .bind (.asks _) fun shown => ?_
  exact .bind (.record rfl) fun _ => .perform rfl

theorem calm_assignProperty (object : Expression) (property : String) (right : Expression) :
    (assignProperty object property right).Calm := by
  rw [assignProperty]
  refine .bind (calm_evaluate right) fun value => ?_
  refine .bind (calm_evaluate object) fun base => ?_
  split
  · refine .bind (.asks _) fun shown => ?_
    exact .bind (.record rfl) fun _ => .perform rfl
  · exact rfl

theorem calm_callMethod (object : Expression) (method : String) (arguments : List Expression) :
    (callMethod object method arguments).Calm := by
  rw [callMethod]
  refine .bind (.record rfl) fun _ => ?_
  refine .bind ?_ fun value => ?_
  · cases arguments with
    | nil => exact trivial
    | cons argument _ => exact calm_evaluate argument
  · exact .bind (.asks _) fun shown => .record rfl

/-! ## Statements that call a name, and all others -/

/-- The name that a statement calls. -/
def Statement.calledName? : Statement → Option String
  | .expression _ (.call _ (.identifier name) _) => some name.name
  | _ => none

/-- A statement that calls a name does nothing else. -/
theorem execute_of_calledName? {s : Statement} {name : String} (h : s.calledName? = some name)
    (call : String → Exec Unit) : execute call s = call name := by
  unfold Statement.calledName? at h
  split at h
  · simp only [Option.some.injEq] at h
    subst h
    rfl
  · exact nomatch h

/-- A statement that calls no name does not depend on what calls do. -/
theorem execute_eq_of_calledName? {s : Statement} (h : s.calledName? = none)
    (call other : String → Exec Unit) : execute call s = execute other s := by
  cases s with
  | expression span e =>
    rw [execute, execute]
    unfold executeExpression
    split
    · rfl
    · rfl
    · rfl
    · exact nomatch h
    · rfl
  | _ => rfl

theorem calm_execute_of_calledName? {s : Statement} (h : s.calledName? = none)
    (call : String → Exec Unit) : (execute call s).Calm := by
  rw [execute_eq_of_calledName? h call fun _ => .done ()]
  unfold execute
  split
  · exact calm_declare _ _
  · unfold executeExpression
    split
    · exact calm_assignVariable _ _
    · exact calm_assignProperty _ _ _
    · exact calm_callMethod _ _ _
    · exact trivial
    · exact trivial
  · exact trivial

/-! ## What calls uphold -/

namespace Exec

variable {α β : Type}

/-- What holds at the end of an execution: `inv` after a result, and `broken` after a fault. -/
def Ends (inv : Machine → Prop) (broken : Fault → Machine → Prop) :
    Except Fault α × Machine → Prop
  | (.ok _, m) => inv m
  | (.error fault, m) => broken fault m

/-- From a state with the invariant an execution ends with it, or with a fault in a state that is
`broken`. -/
def Upholds (inv : Machine → Prop) (broken : Fault → Machine → Prop) (x : Exec α) : Prop :=
  ∀ m, inv m → Ends inv broken (x.run m)

/-- An invariant that calm executions cannot spoil. -/
structure CalmInvariant (inv : Machine → Prop) (broken : Fault → Machine → Prop) : Prop where
  apply : ∀ (effect : Effect) (m : Machine), effect.isCalm = true → inv m → inv (effect.apply m)
  raise : ∀ (fault : Fault) (m : Machine), fault.isOverflow = false → inv m → broken fault m

variable {inv : Machine → Prop} {broken : Fault → Machine → Prop}

/-- One execution after another. -/
theorem Ends.bind {x : Exec α} {next : α → Exec β} {m : Machine}
    (first : Ends inv broken (x.run m)) (each : ∀ a, (next a).Upholds inv broken) :
    Ends inv broken ((x >>= next).run m) := by
  rcases outcome : x.run m with ⟨fault | a, m'⟩
  · rw [outcome] at first
    rw [run_bind_of_error outcome]
    exact first
  · rw [outcome] at first
    rw [run_bind_of_ok outcome]
    exact each a m' first

theorem Upholds.bind {x : Exec α} {next : α → Exec β} (first : x.Upholds inv broken)
    (each : ∀ a, (next a).Upholds inv broken) : (x >>= next).Upholds inv broken :=
  fun m start => (first m start).bind each

namespace CalmInvariant

theorem upholds (calm : CalmInvariant inv broken) {x : Exec α} (h : x.Calm) :
    x.Upholds inv broken := by
  intro m start
  have kept := h.run_of_forall calm.apply start
  rcases outcome : x.run m with ⟨fault | a, m'⟩
  · rw [outcome] at kept
    exact calm.raise fault m' (h.isOverflow_eq outcome) kept
  · rw [outcome] at kept
    exact kept

variable {call : String → Exec Unit}

theorem upholds_execute (calm : CalmInvariant inv broken)
    (calls : ∀ name, (call name).Upholds inv broken) (s : Statement) :
    (execute call s).Upholds inv broken := by
  cases called : s.calledName? with
  | some name =>
    rw [execute_of_calledName? called]
    exact calls name
  | none => exact calm.upholds (calm_execute_of_calledName? called call)

theorem upholds_executeAll (calm : CalmInvariant inv broken)
    (calls : ∀ name, (call name).Upholds inv broken) (statements : List Statement) :
    (executeAll call statements).Upholds inv broken := by
  induction statements with
  | nil => exact fun m start => start
  | cons s rest ih =>
    rw [executeAll]
    exact (calm.upholds_execute calls s).bind fun _ => ih

/-- The body of a function upholds the invariant from the step on that tells of its scope. -/
theorem ends_runBody (calm : CalmInvariant inv broken)
    (calls : ∀ name, (call name).Upholds inv broken) (program : Program) (name : String)
    (id : FunctionId) (scope outer : ScopeId) {m : Machine}
    (begins : Ends inv broken ((record (.createScope name scope outer)).run m)) :
    Ends inv broken ((runBody program call name id scope outer).run m) := by
  rw [runBody]
  refine begins.bind fun _ => ?_
  cases program.function? id with
  | none => exact fun m' start => calm.raise _ m' rfl start
  | some definition =>
    exact (calm.upholds (calm_hoist .functionBody definition.body)).bind
      fun _ => calm.upholds_executeAll calls definition.body

end CalmInvariant

end Exec

end ScriptTrace
