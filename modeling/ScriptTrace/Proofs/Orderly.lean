import ScriptTrace.Trace

/-!
# Orderly executions

The executions of the language are trees, and a statement about all of them would have to be proved
once for expressions, once for object literals, once for each kind of statement, and so on.  This
file says once how these trees are put together, so that such a statement is an induction over a
handful of shapes.

An execution is *orderly* when

* it puts frames on the stack and takes them off only by `inFrame`, and only `inFrame` records the
  two events that tell of it;
* what it does next never depends on the recorder, except that `record` gives up when the limit on
  the number of steps is reached;
* it raises that limit as a fault nowhere else.

The predicate `Orderly allowed` also bounds the effects that occur.  Expressions write to the heap
and nothing else (`Effect.OfExpression`); statements also bind names and enter frames
(`Effect.OfStatement`); only the hoisting of a script stores functions.

* `Exec.Orderly`: the predicate.
* `orderly_evaluate`, `orderly_execute`, `orderly_hoist`, `orderly_callFunction`: one lemma for each
  function of the interpreter.
* `orderly_runScript`: a whole run.
-/

namespace ScriptTrace

/-! ## Events and effects -/

/-- Whether an event tells that a frame is put on the stack or taken off. -/
def Event.marksFrame : Event → Bool
  | .enterCall _ _ | .leaveCall _ _ => true
  | _ => false

namespace Effect

/-- Whether an effect leaves the trace, the stack and the place of a fault alone. -/
def isLocal : Effect → Bool
  | .storeFunction _ _ | .bind _ _ | .allocate | .setProperty _ _ _ => true
  | .record _ | .enter _ _ | .leave | .noteFault => false

/-- The effects of expressions: writes to the objects of the heap. -/
inductive OfExpression : Effect → Prop
  | allocate : OfExpression .allocate
  | setProperty (id : ObjectId) (key : String) (value : Value) :
      OfExpression (.setProperty id key value)

/-- The effects of statements: those of expressions, bindings in the running frame, and calls. -/
inductive OfStatement : Effect → Prop
  | ofExpression {effect : Effect} : effect.OfExpression → OfStatement effect
  | bind (name : String) (binding : Binding) : OfStatement (.bind name binding)
  | enter (name : String) (function : Option FunctionId) : OfStatement (.enter name function)

end Effect

/-! ## The predicate -/

/-- An execution put together from looks at the state, records, local effects and frames. -/
inductive Exec.Orderly (allowed : Effect → Prop) : {α : Type} → Exec α → Prop
  | done {α : Type} (result : α) : Orderly allowed (.done result)
  | raise {α : Type} (fault : Fault) (ne : ∀ limit, fault ≠ .stepLimit limit) :
      Orderly allowed (.raise fault : Exec α)
  | look {α : Type} {next : Machine → Exec α}
      (blind : ∀ (m : Machine) (r : Recorder), next { m with recorder := r } = next m)
      (each : ∀ m, Orderly allowed (next m)) : Orderly allowed (.look next)
  | record (event : Event) (unmarked : event.marksFrame = false) : Orderly allowed (record event)
  | perform (effect : Effect) (isLocal : effect.isLocal = true) (may : allowed effect) :
      Orderly allowed (.perform effect)
  | bind {α β : Type} {x : Exec α} {next : α → Exec β} (first : Orderly allowed x)
      (each : ∀ a, Orderly allowed (next a)) : Orderly allowed (x >>= next)
  | inFrame (name : String) (id : FunctionId) {body : ScopeId → ScopeId → Exec Unit}
      (may : allowed (.enter name (some id)))
      (each : ∀ scope outer, Orderly allowed (body scope outer)) :
      Orderly allowed (inFrame name id body)

namespace Exec.Orderly

variable {allowed wider : Effect → Prop} {α β : Type}

/-- More effects may be allowed. -/
theorem mono (le : ∀ effect, allowed effect → wider effect) {x : Exec α}
    (h : x.Orderly allowed) : x.Orderly wider := by
  induction h with
  | done result => exact .done result
  | raise fault ne => exact .raise fault ne
  | look blind _ ih => exact .look blind ih
  | record event unmarked => exact .record event unmarked
  | perform effect isLocal may => exact .perform effect isLocal (le effect may)
  | bind _ _ first each => exact .bind first each
  | inFrame name id may _ each => exact .inFrame name id (le _ may) each

theorem asks {f : Machine → α}
    (blind : ∀ (m : Machine) (r : Recorder), f { m with recorder := r } = f m) :
    (Exec.asks f).Orderly allowed :=
  .look (fun m r => congrArg Exec.done (blind m r)) fun _ => .done _

theorem asksOrRaises {f : Machine → Except Fault α}
    (blind : ∀ (m : Machine) (r : Recorder), f { m with recorder := r } = f m)
    (ne : ∀ m limit, f m ≠ .error (.stepLimit limit)) : (Exec.asksOrRaises f).Orderly allowed := by
  refine .look (fun m r => by rw [blind m r]) fun m => ?_
  cases h : f m with
  | ok result => exact .done result
  | error fault =>
    refine .raise fault fun limit hl => ?_
    exact ne m limit (h.trans (congrArg Except.error hl))

end Exec.Orderly

/-! ## What the state answers -/

theorem Machine.lookup_ne_stepLimit (m : Machine) (name : String) (limit : Nat) :
    m.lookup name ≠ .error (.stepLimit limit) := by
  rw [Machine.lookup]
  split
  · simp
  · split <;> simp

theorem Machine.callee_ne_stepLimit (m : Machine) (name : String) (limit : Nat) :
    m.callee name ≠ .error (.stepLimit limit) := by
  rw [Machine.callee]
  split
  · simp
  · split
    · rename_i fault h
      intro hf
      rw [Except.error.inj hf] at h
      exact m.lookup_ne_stepLimit name limit h
    · split <;> simp
    · simp

/-! ## Expressions -/

mutual

/-- The evaluation of an expression is orderly and writes only to the heap. -/
theorem orderly_evaluate : ∀ e : Expression, (evaluate e).Orderly Effect.OfExpression
  | .literal _ value => by
    rw [evaluate]
    exact .done _
  | .identifier name => by
    rw [evaluate]
    exact .asksOrRaises (fun _ _ => rfl) fun m limit => m.lookup_ne_stepLimit name.name limit
  | .object _ properties => by
    rw [evaluate]
    refine .bind (.asks fun _ _ => rfl) fun id => ?_
    refine .bind (.perform _ rfl .allocate) fun _ => ?_
    refine .bind (.record _ rfl) fun _ => ?_
    exact .bind (orderly_fillObject id properties) fun _ => .done _
  | .member _ base property => by
    rw [evaluate]
    refine .bind (orderly_evaluate base) fun object => ?_
    exact .bind (.record _ rfl) fun _ => .asks fun _ _ => rfl
  | .array _ _ | .assignVariable _ _ _ | .assignMember _ _ _ _ _ | .call _ _ _ | .function _ _
  | .unary _ _ _ | .binary _ _ _ _ => by
    simp only [evaluate]
    exact .done _

theorem orderly_fillObject (id : ObjectId) :
    ∀ properties : List (Property Expression),
      (fillObject id properties).Orderly Effect.OfExpression
  | [] => by
    rw [fillObject]
    exact .done _
  | ⟨_, .name key, value⟩ :: rest => by
    rw [fillObject]
    refine .bind (orderly_evaluate value) fun value => ?_
    refine .bind (.perform _ rfl (.setProperty id key value)) fun _ => ?_
    refine .bind (.asks fun _ _ => rfl) fun shown => ?_
    exact .bind (.record _ rfl) fun _ => orderly_fillObject id rest
  | ⟨_, .str _, _⟩ :: rest | ⟨_, .num _, _⟩ :: rest => by
    simp only [fillObject]
    exact orderly_fillObject id rest

end

/-! ## Hoisting -/

section Hoisting

variable {allowed : Effect → Prop} (mayBind : ∀ name binding, allowed (.bind name binding))

include mayBind

theorem orderly_hoistFunction (mayStore : ∀ name id, allowed (.storeFunction name id))
    (name : String) (id : FunctionId) : (hoistFunction name id).Orderly allowed := by
  rw [hoistFunction]
  refine .bind (.record _ rfl) fun _ => ?_
  refine .bind (.perform _ rfl (mayStore name id)) fun _ => ?_
  refine .bind (.asks fun _ _ => rfl) fun scope => ?_
  exact .bind (.record _ rfl) fun _ => .perform _ rfl (mayBind _ _)

theorem orderly_hoistVariables (kind : DeclarationKind) (declarators : List Declarator) :
    (hoistVariables kind declarators).Orderly allowed := by
  induction declarators with
  | nil =>
    rw [hoistVariables]
    exact .done _
  | cons declarator rest ih =>
    rw [hoistVariables]
    refine .bind (.asks fun _ _ => rfl) fun scope => ?_
    refine .bind (.record _ rfl) fun _ => ?_
    exact .bind (.perform _ rfl (mayBind _ _)) fun _ => ih

/-- Hoisting is orderly; it stores functions only at the level of a script. -/
theorem orderly_hoist (mode : HoistMode)
    (mayStore : mode = .script → ∀ name id, allowed (.storeFunction name id))
    (statements : List Statement) : (hoist mode statements).Orderly allowed := by
  induction statements with
  | nil =>
    rw [hoist]
    exact .done _
  | cons statement rest ih =>
    match statement with
    | .functionDeclaration _ name id =>
      rw [hoist]
      split
      · rename_i script
        exact .bind (orderly_hoistFunction mayBind (mayStore script) name.name id) fun _ => ih
      · exact ih
    | .variables declaration =>
      rw [hoist]
      exact .bind (orderly_hoistVariables mayBind _ _) fun _ => ih
    | .expression _ _ | .block _ _ | .conditional _ _ _ _ | .whileLoop _ _ _ | .forLoop _ _ _ _ _
    | .returns _ _ | .empty _ =>
      simp only [hoist]
      exact ih

end Hoisting

/-! ## Statements -/

/-- Expressions inside statements. -/
theorem orderly_evaluate_ofStatement (e : Expression) :
    (evaluate e).Orderly Effect.OfStatement :=
  (orderly_evaluate e).mono fun _ => .ofExpression

theorem orderly_declare (kind : DeclarationKind) (declarators : List Declarator) :
    (declare kind declarators).Orderly Effect.OfStatement := by
  induction declarators with
  | nil =>
    rw [declare]
    exact .done _
  | cons declarator rest ih =>
    obtain ⟨_, name, init⟩ := declarator
    cases init with
    | none =>
      rw [declare]
      exact ih
    | some init =>
      rw [declare]
      refine .bind (orderly_evaluate_ofStatement init) fun value => ?_
      refine .bind (.asks fun _ _ => rfl) fun shown => ?_
      refine .bind (.record _ rfl) fun _ => ?_
      exact .bind (.perform _ rfl (.bind _ _)) fun _ => ih

theorem orderly_assignVariable (name : String) (right : Expression) :
    (assignVariable name right).Orderly Effect.OfStatement := by
  rw [assignVariable]
  refine .bind (orderly_evaluate_ofStatement right) fun value => ?_
  refine .bind (.asks fun _ _ => rfl) fun shown => ?_
  exact .bind (.record _ rfl) fun _ => .perform _ rfl (.bind _ _)

theorem orderly_assignProperty (object : Expression) (property : String) (right : Expression) :
    (assignProperty object property right).Orderly Effect.OfStatement := by
  rw [assignProperty]
  refine .bind (orderly_evaluate_ofStatement right) fun value => ?_
  refine .bind (orderly_evaluate_ofStatement object) fun base => ?_
  split
  · refine .bind (.asks fun _ _ => rfl) fun shown => ?_
    exact .bind (.record _ rfl) fun _ => .perform _ rfl (.ofExpression (.setProperty _ _ _))
  · exact .raise _ fun limit => by simp

theorem orderly_callMethod (object : Expression) (method : String)
    (arguments : List Expression) :
    (callMethod object method arguments).Orderly Effect.OfStatement := by
  rw [callMethod]
  refine .bind (.record _ rfl) fun _ => ?_
  refine .bind ?_ fun value => ?_
  · cases arguments with
    | nil => exact .done _
    | cons argument _ => exact orderly_evaluate_ofStatement argument
  · exact .bind (.asks fun _ _ => rfl) fun shown => .record _ rfl

/-- A statement is orderly if the calls that it makes are. -/
theorem orderly_execute {call : String → Exec Unit}
    (each : ∀ name, (call name).Orderly Effect.OfStatement) (s : Statement) :
    (execute call s).Orderly Effect.OfStatement := by
  unfold execute
  split
  · exact orderly_declare _ _
  · unfold executeExpression
    split
    · exact orderly_assignVariable _ _
    · exact orderly_assignProperty _ _ _
    · exact orderly_callMethod _ _ _
    · exact each _
    · exact .done _
  · exact .done _

theorem orderly_executeAll {call : String → Exec Unit}
    (each : ∀ name, (call name).Orderly Effect.OfStatement) (statements : List Statement) :
    (executeAll call statements).Orderly Effect.OfStatement := by
  induction statements with
  | nil =>
    rw [executeAll]
    exact .done _
  | cons s rest ih =>
    rw [executeAll]
    exact .bind (orderly_execute each s) fun _ => ih

/-! ## Calls -/

theorem orderly_runBody (program : Program) {call : String → Exec Unit}
    (each : ∀ name, (call name).Orderly Effect.OfStatement) (name : String) (id : FunctionId)
    (scope outer : ScopeId) :
    (runBody program call name id scope outer).Orderly Effect.OfStatement := by
  rw [runBody]
  refine .bind (.record _ rfl) fun _ => ?_
  split
  · exact .raise _ fun limit => by simp
  · refine .bind ?_ fun _ => orderly_executeAll each _
    exact orderly_hoist .bind .functionBody (fun script => nomatch script) _

/-- A call is orderly, whatever the allowance: the induction is on the allowance, which the calls
inside the body have one less of. -/
theorem orderly_callFunction (program : Program) (limit allowance : Nat) (name : String) :
    (callFunction program limit allowance name).Orderly Effect.OfStatement := by
  induction allowance generalizing name with
  | zero =>
    rw [callFunction]
    refine .bind (.record _ rfl) fun _ => ?_
    refine .bind (.asksOrRaises (fun _ _ => rfl) fun m => m.callee_ne_stepLimit name) fun id => ?_
    exact .raise _ fun limit => by simp
  | succ allowance ih =>
    rw [callFunction]
    refine .bind (.record _ rfl) fun _ => ?_
    refine .bind (.asksOrRaises (fun _ _ => rfl) fun m => m.callee_ne_stepLimit name) fun id => ?_
    exact .inFrame name id (.enter _ _) (orderly_runBody program ih name id)

theorem orderly_executeStatement (program : Program) (limit : Nat) (s : Statement) :
    (executeStatement program limit s).Orderly Effect.OfStatement :=
  .look (fun _ _ => rfl) fun _ => orderly_execute (orderly_callFunction program limit _) s

theorem orderly_executeStatements (program : Program) (limit : Nat)
    (statements : List Statement) :
    (executeStatements program limit statements).Orderly Effect.OfStatement := by
  induction statements with
  | nil =>
    rw [executeStatements]
    exact .done _
  | cons s rest ih =>
    rw [executeStatements]
    exact .bind (orderly_executeStatement program limit s) fun _ => ih

/-- **Every run is orderly.** -/
theorem orderly_runScript (config : Config) (program : Program) :
    (runScript config program).Orderly fun _ => True := by
  rw [runScript]
  refine .bind (.record _ rfl) fun _ => ?_
  refine .bind ?_ fun _ => ?_
  · exact orderly_hoist (fun _ _ => trivial) .script (fun _ _ _ => trivial) _
  · exact (orderly_executeStatements program _ _).mono fun _ _ => trivial

end ScriptTrace
