import ScriptTrace.Proofs.CalleeDispatch
import ScriptTrace.Proofs.Points

/-!
# Statements take no values away

Hoisting and assignment bind names in the same way, and hoisting may well take the value of a
variable away: of `var a` and then `let a` only the second is left.  Statements do not.  What they
bind in the scope of the running frame has a value; and the calls that they make hoist, but each in
a new scope.

So, for a scope that is there when a statement begins, every effect of the statement is one that
takes no value away in that scope (`Effect.Settles`), and the scope only gains by it
(`Machine.Gains`): it has further names at the end, and what could be read can be read.

* `Machine.Gains`: a scope has further names, and what could be read can be read.
* `Exec.Settled`: an execution that takes no value away in a scope, with one lemma for each function
  of the interpreter that runs after hoisting.
* `giveValue`: what initializers and assignments have in common.
-/

namespace ScriptTrace

/-! ## What a scope gains -/

/-- A scope has the names of another one, then perhaps others, and its variables can be read if they
could be read there. -/
structure Scope.Gains (r r' : Scope) : Prop where
  keys_prefix : r.bindings.keys <+: r'.bindings.keys
  initialized : ∀ name binding, r.bindings.get? name = some binding → binding.initialized = true →
    ∃ binding', r'.bindings.get? name = some binding' ∧ binding'.initialized = true

theorem Scope.Gains.refl (r : Scope) : r.Gains r :=
  ⟨List.prefix_refl _, fun _ binding bound initialized => ⟨binding, bound, initialized⟩⟩

theorem Scope.Gains.trans {r₁ r₂ r₃ : Scope} (first : r₁.Gains r₂) (second : r₂.Gains r₃) :
    r₁.Gains r₃ where
  keys_prefix := first.keys_prefix.trans second.keys_prefix
  initialized name binding bound initialized := by
    obtain ⟨binding', bound', initialized'⟩ := first.initialized name binding bound initialized
    exact second.initialized name binding' bound' initialized'

/-- A variable that can be read is bound. -/
theorem Scope.gains_put (r : Scope) (name : String) {binding : Binding}
    (initialized : binding.initialized = true) :
    r.Gains { r with bindings := r.bindings.put name binding } where
  keys_prefix := by
    show r.bindings.keys <+: (r.bindings.put name binding).keys
    rw [Table.keys_put]
    split
    · exact List.prefix_refl _
    · exact List.prefix_append _ _
  initialized key old bound was := by
    show ∃ binding', (r.bindings.put name binding).get? key = some binding' ∧ _
    rw [Table.get?_put]
    split
    · exact ⟨binding, rfl, initialized⟩
    · exact ⟨old, bound, was⟩

/-- A scope of a state gains until another state. -/
def Machine.Gains (id : ScopeId) (m m' : Machine) : Prop :=
  ∀ scope, m.scopes.get? id = some scope →
    ∃ scope', m'.scopes.get? id = some scope' ∧ scope.Gains scope'

theorem Machine.Gains.refl (id : ScopeId) (m : Machine) : m.Gains id m :=
  fun scope here => ⟨scope, here, .refl scope⟩

theorem Machine.Gains.trans {id : ScopeId} {m₁ m₂ m₃ : Machine} (first : m₁.Gains id m₂)
    (second : m₂.Gains id m₃) : m₁.Gains id m₃ := by
  intro scope here
  obtain ⟨scope', there, gains⟩ := first scope here
  obtain ⟨scope'', last, gains'⟩ := second scope' there
  exact ⟨scope'', last, gains.trans gains'⟩

/-- An effect takes no value away in a scope. -/
def Effect.Settles (id : ScopeId) (m : Machine) : Effect → Prop
  | .bind _ binding => m.currentScope = id → binding.initialized = true
  | _ => True

/-- **The step**: a scope gains by an effect that takes no value away in it. -/
theorem Effect.Settles.gains {id : ScopeId} {m : Machine} {effect : Effect}
    (settles : effect.Settles id m) : m.Gains id (effect.apply m) := by
  intro scope here
  cases effect with
  | bind name binding =>
    show ∃ scope', (m.scopes.put m.currentScope name binding).get? id = some scope' ∧ _
    rw [Scopes.get?_put]
    by_cases own : m.currentScope = id
    · rw [if_pos own, here]
      exact ⟨_, rfl, scope.gains_put name (settles own)⟩
    · rw [if_neg own]
      exact ⟨scope, here, .refl scope⟩
  | enter name function =>
    show ∃ scope', (m.scopes.add name m.currentScope).get? id = some scope' ∧ _
    rw [Scopes.get?_add, if_neg (Nat.ne_of_lt (Scopes.lt_size_of_get? here))]
    exact ⟨scope, here, .refl scope⟩
  | _ => exact ⟨scope, here, .refl scope⟩

/-- No scope is ever removed. -/
theorem Effect.size_scopes_le (effect : Effect) (m : Machine) :
    m.scopes.size ≤ (effect.apply m).scopes.size := by
  cases effect with
  | bind name binding =>
    show _ ≤ (m.scopes.put m.currentScope name binding).size
    exact Nat.le_of_eq (Scopes.size_put _ _ _ _).symm
  | enter name function =>
    show _ ≤ (m.scopes.add name m.currentScope).size
    rw [Scopes.size_add]
    exact Nat.le_succ _
  | _ => exact Nat.le_refl _

/-! ## Executions that take no value away -/

namespace Exec

variable {α β : Type} {id : ScopeId}

/-- From every state with a scope, an execution takes no value away in the scope. -/
def Settled (id : ScopeId) (x : Exec α) : Prop :=
  ∀ m : Machine, id < m.scopes.size → x.Along (Effect.Settles id) m

theorem lt_size_run (x : Exec α) {m : Machine} (inside : id < m.scopes.size) :
    id < (x.run m).2.scopes.size :=
  x.run_of_forall_effect (P := fun s => id < s.scopes.size)
    (fun effect s there => Nat.lt_of_lt_of_le there (effect.size_scopes_le s)) inside

theorem lt_size_of_run {x : Exec α} {m m' : Machine} {outcome : Except Fault α}
    (ended : x.run m = (outcome, m')) (inside : id < m.scopes.size) : id < m'.scopes.size := by
  have kept := x.lt_size_run inside
  rwa [ended] at kept

namespace Settled

theorem done (result : α) : (Exec.done result).Settled id :=
  fun _ _ => trivial

theorem raise (fault : Fault) : (Exec.raise fault : Exec α).Settled id :=
  fun _ _ => trivial

theorem look {next : Machine → Exec α} (each : ∀ m, (next m).Settled id) :
    (Exec.look next).Settled id :=
  fun m inside => each m m inside

theorem asks (f : Machine → α) : (Exec.asks f).Settled id :=
  fun m _ => .asks f m

theorem asksOrRaises (f : Machine → Except Fault α) : (Exec.asksOrRaises f).Settled id :=
  fun m _ => .asksOrRaises f m

theorem record (event : Event) : (ScriptTrace.record event).Settled id :=
  fun _ _ => .record trivial

theorem perform {effect : Effect} (settles : ∀ m, effect.Settles id m) :
    (Exec.perform effect).Settled id :=
  fun m _ => .perform (settles m)

theorem bind {x : Exec α} {next : α → Exec β} (first : x.Settled id)
    (each : ∀ a, (next a).Settled id) : (x >>= next).Settled id :=
  fun m inside => (first m inside).bind fun a m' ended => each a m' (lt_size_of_run ended inside)

end Settled

/-- Expressions record and write to the heap, and do nothing else. -/
theorem Orderly.along {P : Machine → Effect → Prop} {x : Exec α}
    (h : x.Orderly Effect.OfExpression) (records : ∀ m event, P m (.record event))
    (writes : ∀ m effect, effect.OfExpression → P m effect) (m : Machine) : x.Along P m := by
  induction h generalizing m with
  | done _ => trivial
  | raise _ _ => trivial
  | look _ _ ih => exact ih m m
  | record event _ => exact .record (records m event)
  | perform effect _ may => exact .perform (writes m effect may)
  | bind _ _ first each => exact (first m).bind fun a m' _ => each a m'
  | inFrame name function may _ _ => exact nomatch may

/-- What is calm in one scope takes no value away in another one. -/
theorem Calm.along_settles {x : Exec α} (h : x.Calm) {m : Machine} (other : m.currentScope ≠ id) :
    x.Along (Effect.Settles id) m := by
  induction x generalizing m with
  | done _ => trivial
  | raise _ => trivial
  | look rest ih => exact ih m (h m) other
  | act effect rest ih =>
    refine ⟨?_, ih h.2 ?_⟩
    · cases effect with
      | bind name binding => exact fun own => absurd own other
      | _ => trivial
    · rwa [Machine.currentScope, Effect.stack_apply_of_isCalm h.1]

end Exec

/-! ## Statements -/

/-- The value of an expression is told and given to a variable. -/
def giveValue (name : String) (event : Shown → Event) (e : Expression) : Exec Unit := do
  let value ← evaluate e
  let shown ← .asks fun m => m.shown value
  record (event shown)
  .perform (.bind name (.holding value))

/-- An assignment gives a value. -/
theorem assignVariable_eq_giveValue (name : String) (right : Expression) :
    assignVariable name right = giveValue name (.assignVariable name) right :=
  rfl

/-- A declarator with an initializer gives a value. -/
theorem declare_cons_eq_giveValue (kind : DeclarationKind) (span : Span) (name : Identifier)
    (init : Expression) (rest : List Declarator) :
    declare kind (⟨span, name, some init⟩ :: rest) = (do
      giveValue name.name (.initializeVariable kind name.name) init
      declare kind rest) := by
  simp only [declare, giveValue, bind_assoc]

section

variable {id : ScopeId}

theorem settled_evaluate (e : Expression) : (evaluate e).Settled id := by
  refine fun m _ => (orderly_evaluate e).along (fun _ _ => trivial) (fun _ _ write => ?_) m
  cases write <;> trivial

theorem scopes_of_mem_states_evaluate (e : Expression) (m : Machine) :
    ∀ s ∈ (evaluate e).states m, s.scopes = m.scopes := by
  have along : (evaluate e).Along (fun m effect => (effect.apply m).scopes = m.scopes) m := by
    refine (orderly_evaluate e).along (fun _ _ => rfl) (fun _ _ write => ?_) m
    cases write <;> rfl
  exact along.forall_states (R := fun m s => s.scopes = m.scopes) (fun _ => rfl)
    (fun first second => second.trans first) fun same => same

theorem settled_giveValue (name : String) (event : Shown → Event) (e : Expression) :
    (giveValue name event e).Settled id := by
  refine .bind (settled_evaluate e) fun value => .bind (.asks _) fun shown => ?_
  exact .bind (.record _) fun _ => .perform fun _ _ => rfl

theorem settled_declare (kind : DeclarationKind) (declarators : List Declarator) :
    (declare kind declarators).Settled id := by
  induction declarators with
  | nil =>
    rw [declare]
    exact .done _
  | cons declarator rest ih =>
    obtain ⟨span, name, init⟩ := declarator
    cases init with
    | none =>
      rw [declare]
      exact ih
    | some init =>
      rw [declare_cons_eq_giveValue]
      exact .bind (settled_giveValue _ _ _) fun _ => ih

theorem settled_assignProperty (object : Expression) (property : String) (right : Expression) :
    (assignProperty object property right).Settled id := by
  rw [assignProperty]
  refine .bind (settled_evaluate right) fun value => .bind (settled_evaluate object) fun base => ?_
  split
  · refine .bind (.asks _) fun shown => .bind (.record _) fun _ => .perform fun _ => trivial
  · exact .raise _

theorem settled_callMethod (object : Expression) (method : String) (arguments : List Expression) :
    (callMethod object method arguments).Settled id := by
  rw [callMethod]
  refine .bind (.record _) fun _ => .bind ?_ fun value => .bind (.asks _) fun shown => .record _
  cases arguments with
  | nil => exact .done _
  | cons argument _ => exact settled_evaluate argument

theorem settled_execute {call : String → Exec Unit} (each : ∀ name, (call name).Settled id)
    (s : Statement) : (execute call s).Settled id := by
  unfold execute
  split
  · exact settled_declare _ _
  · unfold executeExpression
    split
    · rw [assignVariable_eq_giveValue]
      exact settled_giveValue _ _ _
    · exact settled_assignProperty _ _ _
    · exact settled_callMethod _ _ _
    · exact each _
    · exact .done _
  · exact .done _

theorem settled_executeAll {call : String → Exec Unit} (each : ∀ name, (call name).Settled id)
    (statements : List Statement) : (executeAll call statements).Settled id := by
  induction statements with
  | nil =>
    rw [executeAll]
    exact .done _
  | cons s rest ih =>
    rw [executeAll]
    exact .bind (settled_execute each s) fun _ => ih

/-! ## Calls -/

theorem settled_leaveFrame (name : String) (outcome : Except Fault Unit) :
    (leaveFrame name outcome).Settled id := by
  cases outcome with
  | ok _ =>
    rw [leaveFrame]
    exact .bind (.perform fun _ => trivial) fun _ => .bind (.asks _) fun _ => .record _
  | error fault =>
    rw [leaveFrame]
    exact .bind (.perform fun _ => trivial) fun _ => .bind (.perform fun _ => trivial) fun _ =>
      .raise fault

/-- A body hoists in the scope of its own frame, and then its statements run. -/
theorem along_runBody (program : Program) {call : String → Exec Unit}
    (each : ∀ name, (call name).Settled id) (name : String) (function : FunctionId)
    (scope outer : ScopeId) {m : Machine} (inside : id < m.scopes.size)
    (other : m.currentScope ≠ id) :
    (runBody program call name function scope outer).Along (Effect.Settles id) m := by
  rw [runBody_eq]
  refine ((calm_openBody program name function scope outer).along_settles other).bind ?_
  intro statements m' opened
  exact settled_executeAll each statements m' (Exec.lt_size_of_run opened inside)

theorem settled_inFrame (name : String) (function : FunctionId)
    {body : ScopeId → ScopeId → Exec Unit}
    (each : ∀ scope outer m, id < m.scopes.size → m.currentScope ≠ id →
      (body scope outer).Along (Effect.Settles id) m) :
    (inFrame name function body).Settled id := by
  rw [inFrame]
  refine .bind (.asks _) fun depth => .bind (.record _) fun _ => .bind (.asks _) fun scope => ?_
  refine .bind (.asks _) fun outer m inside => ?_
  refine Exec.Along.bind (.perform trivial) fun _ m' entered => ?_
  obtain rfl : m' = (Effect.enter name (some function)).apply m := (congrArg Prod.snd entered).symm
  have inside' := Nat.lt_of_lt_of_le inside ((Effect.enter name (some function)).size_scopes_le m)
  -- the new frame has the scope that is added
  have other : ((Effect.enter name (some function)).apply m).currentScope ≠ id :=
    Nat.ne_of_gt inside
  refine Exec.Along.attempt (each scope outer _ inside' other) ?_
  exact settled_leaveFrame name _ _ (Exec.lt_size_run _ inside')

theorem settled_callFunction (program : Program) (limit allowance : Nat) (name : String) :
    (callFunction program limit allowance name).Settled id := by
  induction allowance generalizing name with
  | zero =>
    rw [callFunction]
    exact .bind (.record _) fun _ => .bind (.asksOrRaises _) fun _ => .raise _
  | succ allowance ih =>
    rw [callFunction]
    refine .bind (.record _) fun _ => .bind (.asksOrRaises _) fun function => ?_
    exact settled_inFrame name function fun scope outer m inside other =>
      along_runBody program ih name function scope outer inside other

/-- **No statement takes a value away in a scope that is there when it begins.** -/
theorem settled_executeStatements (program : Program) (limit : Nat) (statements : List Statement) :
    (executeStatements program limit statements).Settled id := by
  induction statements with
  | nil =>
    rw [executeStatements]
    exact .done _
  | cons s rest ih =>
    rw [executeStatements]
    refine .bind (.look fun m => ?_) fun _ => ih
    exact settled_execute (settled_callFunction program limit _) s

end

end ScriptTrace
