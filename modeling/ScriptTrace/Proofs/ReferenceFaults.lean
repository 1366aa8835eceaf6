import ScriptTrace.Proofs.References
import ScriptTrace.Proofs.Termination

/-!
# Faults of reference and the declarations of a program

A run stops with a fault of reference when it reads a name that no frame binds, or a variable whose
declaration has not run.  Both happen at any depth of calls, and in which frame a name is found
depends on who called whom.  This file says what the two faults mean for the text of the program.

## A name that is not defined

Before the first statement of a script runs, every name that the script declares is bound in the
scope of the script (`hoists_hoist`).  No effect ever takes a binding away
(`Machine.BindsGlobally.apply`), and from every frame the search for a name goes out to that scope
(`Machine.Linked`).  So a name that is not found is not declared there.

## A variable that cannot be read yet

Only hoisting makes bindings without a value, for the variables of `let` and `const`, and it does
not search nested statements.  So a variable that cannot be read has such a declaration directly in
the script or in the body of a function.  This is no invariant of every effect, and the execution
has to be followed (`Exec.Attributable`); on the way it is seen that every fault of reference
surfaces in a state in which a name that the program reads cannot be read (`Fault.DueTo`).

* `Statement.declaredNames`, `Statement.lexicalNames`, `Statement.reads`: the names of a statement.
* `attributable_callFunction`, `attributable_executeStatements`: what a run keeps.
* `reference_faults_of_runProgram`: what the two faults say about the declarations, and programs
  that have neither.
-/

namespace ScriptTrace

/-! ## The names of a program -/

namespace Statement

/-- The names that a statement declares itself. -/
def declaredNames : Statement → List String
  | .functionDeclaration _ name _ => [name.name]
  | .variables declaration => declaration.declarators.map fun d => d.name.name
  | _ => []

/-- The names that a statement declares itself by `let` or `const`. -/
def lexicalNames : Statement → List String
  | .variables declaration =>
    if declaration.kind.isLexical then declaration.declarators.map fun d => d.name.name else []
  | _ => []

end Statement

mutual

/-- The names that the evaluation of an expression reads. -/
def Expression.reads : Expression → List String
  | .identifier name => [name.name]
  | .object _ properties => readsOfProperties properties
  | .member _ base _ => base.reads
  | _ => []

/-- The names that filling an object reads. -/
def readsOfProperties : List (Property Expression) → List String
  | [] => []
  | ⟨_, .name _, value⟩ :: rest => value.reads ++ readsOfProperties rest
  | _ :: rest => readsOfProperties rest

end

/-- The names that the first value of a variable reads. -/
def Declarator.reads (d : Declarator) : List String :=
  (d.init.map Expression.reads).getD []

/-- The names that the execution of a statement reads or calls itself. -/
def Statement.reads : Statement → List String
  | .variables declaration => declaration.declarators.flatMap Declarator.reads
  | .expression _ (.assignVariable _ _ value) => value.reads
  | .expression _ (.assignMember _ _ base _ value) => value.reads ++ base.reads
  | .expression _ (.call _ (.member _ _ _) (argument :: _)) => argument.reads
  | .expression _ (.call _ (.identifier name) _) => [name.name]
  | _ => []

/-- The statements that stand directly in a script or in the body of one of its functions. -/
def Program.statements (p : Program) : List Statement :=
  p.body ++ p.functions.toList.flatMap FunctionDefinition.body

theorem Program.mem_statements_of_function? {p : Program} {id : FunctionId}
    {definition : FunctionDefinition} (there : p.function? id = some definition) {s : Statement}
    (inside : s ∈ definition.body) : s ∈ p.statements := by
  have mem : definition ∈ p.functions.toList :=
    Array.mem_toList_iff.mpr (Array.mem_of_getElem? there)
  exact List.mem_append_right _ (List.mem_flatMap.mpr ⟨definition, mem, inside⟩)

/-! ## Bindings after a change -/

namespace Scopes

theorem binding?_put (s : Scopes) (id : ScopeId) (name : String) (binding : Binding) (key : String)
    (other : ScopeId) :
    (s.put id name binding).binding? key other =
      if id = other ∧ key = name then (s.get? other).map fun _ => binding
      else s.binding? key other := by
  rw [binding?, binding?, get?_put]
  by_cases here : id = other
  · rw [if_pos here]
    cases s.get? other with
    | none => simp
    | some scope =>
      by_cases same : key = name
      · simp [here, same]
      · simp [here, same, Ne.symm same]
  · simp [here]

theorem binding?_add (s : Scopes) (name : String) (outer : ScopeId) (key : String) (id : ScopeId) :
    (s.add name outer).binding? key id = if id = s.size then none else s.binding? key id := by
  rw [binding?, binding?, get?_add]
  split
  · rfl
  · rfl

end Scopes

namespace Machine

/-- Only variables with the names `late` may lack a value. -/
def LateOnly (late : String → Prop) (m : Machine) : Prop :=
  ∀ name id binding, m.scopes.binding? name id = some binding → binding.initialized = false →
    late name

variable {late : String → Prop} {m : Machine}

theorem lateOnly_initial (late : String → Prop) (config : Config) :
    (Machine.initial config).LateOnly late := by
  intro name id binding bound _
  cases id with
  | zero => exact nomatch bound
  | succ _ => exact nomatch bound

/-- **The step**: an effect keeps this, if it binds only such names without a value. -/
theorem LateOnly.apply (h : m.LateOnly late) {effect : Effect}
    (admitted : ∀ name binding, effect = .bind name binding → binding.initialized = false →
      late name) : (effect.apply m).LateOnly late := by
  cases effect with
  | bind name binding =>
    intro key id found bound unready
    change (m.scopes.put m.currentScope name binding).binding? key id = some found at bound
    rw [Scopes.binding?_put] at bound
    split at bound
    · rename_i same
      obtain ⟨-, -, rfl⟩ := Option.map_eq_some_iff.mp bound
      exact same.2 ▸ admitted name binding rfl unready
    · exact h key id found bound unready
  | enter name function =>
    intro key id found bound unready
    change (m.scopes.add name m.currentScope).binding? key id = some found at bound
    rw [Scopes.binding?_add] at bound
    split at bound
    · exact nomatch bound
    · exact h key id found bound unready
  | _ => exact h

/-- A variable that cannot be read yet is one of them. -/
theorem LateOnly.late_of_lookup (h : m.LateOnly late) (linked : m.Linked) {name : String}
    (unread : m.lookup name = .error (.uninitialized name)) : late name := by
  obtain ⟨binding, found, unready⟩ := (linked.lookup_eq_uninitialized_iff name).mp unread
  obtain ⟨frame, -, bound⟩ := List.exists_of_findSome?_eq_some found
  exact h name frame.scope binding bound unready

/-- A name is bound in the scope of the script. -/
def BindsGlobally (name : String) (m : Machine) : Prop :=
  (m.scopes.binding? name globalScope).isSome

/-- Every effect keeps the names that are bound in the scope of the script. -/
theorem BindsGlobally.apply {name : String} (h : m.BindsGlobally name) (effect : Effect) :
    (effect.apply m).BindsGlobally name := by
  have there : (m.scopes.get? globalScope).isSome := by
    cases found : m.scopes.get? globalScope with
    | none => simp [BindsGlobally, Scopes.binding?, found] at h
    | some scope => rfl
  cases effect with
  | bind other binding =>
    show ((m.scopes.put m.currentScope other binding).binding? name globalScope).isSome
    rw [Scopes.binding?_put]
    split
    · simpa using there
    · exact h
  | enter other function =>
    show ((m.scopes.add other m.currentScope).binding? name globalScope).isSome
    obtain ⟨scope, found⟩ := Option.isSome_iff_exists.mp there
    have old : globalScope ≠ m.scopes.size := Nat.ne_of_lt (Scopes.lt_size_of_get? found)
    rw [Scopes.binding?_add, if_neg old]
    exact h
  | _ => exact h

/-- A name that is bound in the scope of the script is defined, from every frame. -/
theorem BindsGlobally.lookup_ne {name : String} (h : m.BindsGlobally name) (linked : m.Linked) :
    m.lookup name ≠ .error (.notDefined name) := by
  intro unread
  have nowhere := (linked.lookup_eq_notDefined_iff name).mp unread
  have last := linked.walk.getLast?_eq linked.wellLinked
  obtain ⟨frame, mem, scope⟩ := List.mem_map.mp (List.mem_of_getLast? last)
  have unbound := nowhere frame mem
  rw [scope] at unbound
  simp [BindsGlobally, unbound] at h

end Machine

/-! ## Where faults surface -/

/-- A fault of reference is what reading one of the names `used` gives. -/
def Fault.DueTo (used : String → Prop) (fault : Fault) (m : Machine) : Prop :=
  fault.kind = .referenceError → ∃ name, used name ∧ m.lookup name = .error fault

namespace Exec

variable {α β : Type} {late used : String → Prop} {blames : Fault → Machine → Prop}

/-- From a state in which only variables with the names `late` lack a value, an execution keeps
this, and a fault surfaces in a state that is to blame for it. -/
def Attributable (late : String → Prop) (blames : Fault → Machine → Prop) (x : Exec α) : Prop :=
  ∀ m : Machine, m.LateOnly late → x.Meets (Machine.LateOnly late) blames (fun _ _ => True) m

namespace Attributable

theorem done (result : α) : (Exec.done result).Attributable late blames :=
  fun _ h => .done h trivial

theorem raise {fault : Fault} (due : ∀ m, blames fault m) :
    (Exec.raise fault : Exec α).Attributable late blames :=
  fun m h => .raise h (due m)

theorem asks (f : Machine → α) : (Exec.asks f).Attributable late blames :=
  fun _ h => (Meets.asks h f).mono fun _ _ _ => trivial

theorem asksOrRaises {f : Machine → Except Fault α}
    (due : ∀ m fault, f m = .error fault → blames fault m) :
    (Exec.asksOrRaises f).Attributable late blames :=
  fun m h => .asksOrRaises h (fun _ _ => trivial) (due m)

theorem perform {effect : Effect} (admitted : ∀ name binding, effect = .bind name binding →
    binding.initialized = false → late name) : (Exec.perform effect).Attributable late blames :=
  fun _ h => (Meets.perform h (h.apply admitted)).mono fun _ _ _ => trivial

/-- A variable gets a value. -/
theorem hold (name : String) (value : Value) :
    (Exec.perform (.bind name (.holding value))).Attributable late blames := by
  refine perform ?_
  rintro _ _ ⟨⟩ unready
  exact nomatch unready

theorem record (event : Event) (limits : ∀ limit m, blames (.stepLimit limit) m) :
    (ScriptTrace.record event).Attributable late blames := by
  intro m h
  have there : ((Effect.record event).apply m).LateOnly late := h.apply nofun
  exact (Meets.record h there fun limit => limits limit m).mono fun _ _ _ => trivial

theorem bind {x : Exec α} {next : α → Exec β} (first : x.Attributable late blames)
    (each : ∀ a, (next a).Attributable late blames) : (x >>= next).Attributable late blames :=
  fun m h => .bind (first m h) fun a m' h' _ => each a m' h'

end Attributable

end Exec

open Exec

section

variable {late used : String → Prop}

theorem Fault.dueTo_of_kind_ne {fault : Fault} (other : fault.kind ≠ .referenceError)
    (m : Machine) : fault.DueTo used m :=
  fun reference => absurd reference other

theorem Fault.dueTo_stepLimit (limit : Nat) (m : Machine) :
    Fault.DueTo used (.stepLimit limit) m :=
  dueTo_of_kind_ne (by simp [kind]) m

theorem Fault.dueTo_lookup {name : String} (isUsed : used name) (m : Machine) (fault : Fault)
    (unread : m.lookup name = .error fault) : fault.DueTo used m :=
  fun _ => ⟨name, isUsed, unread⟩

theorem Fault.dueTo_callee {name : String} (isUsed : used name) (m : Machine) (fault : Fault)
    (uncalled : m.callee name = .error fault) : fault.DueTo used m := by
  have calls := m.calls_callee name
  rw [uncalled] at calls
  cases calls with
  | unread _ read => exact dueTo_lookup isUsed m fault read
  | missing _ _ _ => exact dueTo_of_kind_ne (by simp [kind]) m
  | other _ _ _ => exact dueTo_of_kind_ne (by simp [kind]) m

/-! ## Hoisting -/

section Hoisting

variable {blames : Fault → Machine → Prop} (limits : ∀ limit m, blames (.stepLimit limit) m)

include limits

theorem attributable_hoistFunction (name : String) (id : FunctionId) :
    (hoistFunction name id).Attributable late blames := by
  rw [hoistFunction]
  refine .bind (.record _ limits) fun _ => ?_
  refine .bind (.perform (by simp)) fun _ => ?_
  refine .bind (.asks _) fun scope => ?_
  exact .bind (.record _ limits) fun _ => .hold _ _

theorem attributable_hoistVariables (kind : DeclarationKind) (declarators : List Declarator)
    (lexical : kind.isLexical = true → ∀ d ∈ declarators, late d.name.name) :
    (hoistVariables kind declarators).Attributable late blames := by
  induction declarators with
  | nil =>
    rw [hoistVariables]
    exact .done _
  | cons declarator rest ih =>
    rw [hoistVariables]
    refine .bind (.asks _) fun scope => ?_
    refine .bind (.record _ limits) fun _ => ?_
    refine .bind (.perform ?_) fun _ => ih fun isLexical d hd => ?_
    · rintro _ _ ⟨⟩ unready
      cases isLexical : kind.isLexical with
      | true => exact lexical isLexical declarator List.mem_cons_self
      | false => simp [DeclarationKind.hoisted, isLexical, Binding.holding] at unready
    · exact lexical isLexical d (List.mem_cons_of_mem _ hd)

/-- Hoisting leaves only the variables of `let` and `const` without a value. -/
theorem attributable_hoist (mode : HoistMode) (statements : List Statement)
    (lexical : ∀ s ∈ statements, ∀ name ∈ s.lexicalNames, late name) :
    (hoist mode statements).Attributable late blames := by
  induction statements with
  | nil =>
    rw [hoist]
    exact .done _
  | cons s rest ih =>
    have further := ih fun s' hs' => lexical s' (List.mem_cons_of_mem _ hs')
    have here := lexical s List.mem_cons_self
    cases s with
    | functionDeclaration span name id =>
      rw [hoist]
      split
      · exact .bind (attributable_hoistFunction limits name.name id) fun _ => further
      · exact further
    | «variables» declaration =>
      rw [hoist]
      refine .bind (attributable_hoistVariables limits _ _ ?_) fun _ => further
      intro isLexical d hd
      refine here _ ?_
      rw [Statement.lexicalNames, if_pos isLexical]
      exact List.mem_map_of_mem hd
    | _ =>
      simp only [hoist]
      exact further

end Hoisting

/-! ## Expressions and statements -/

mutual

theorem attributable_evaluate : ∀ e : Expression, (∀ name ∈ e.reads, used name) →
    (evaluate e).Attributable late (Fault.DueTo used)
  | .literal _ value, _ => by
    rw [evaluate]
    exact .done _
  | .identifier name, reads => by
    rw [evaluate]
    exact .asksOrRaises (Fault.dueTo_lookup (reads name.name (by simp [Expression.reads])))
  | .object _ properties, reads => by
    rw [evaluate]
    refine .bind (.asks _) fun id => ?_
    refine .bind (.perform (by simp)) fun _ => ?_
    refine .bind (.record _ Fault.dueTo_stepLimit) fun _ => ?_
    refine .bind (attributable_fillObject id properties fun name hn => ?_) fun _ => .done _
    exact reads name (by simpa [Expression.reads] using hn)
  | .member _ base property, reads => by
    rw [evaluate]
    refine .bind (attributable_evaluate base fun name hn => ?_) fun object => ?_
    · exact reads name (by simpa [Expression.reads] using hn)
    · exact .bind (.record _ Fault.dueTo_stepLimit) fun _ => .asks _
  | .array _ _, _ | .assignVariable _ _ _, _ | .assignMember _ _ _ _ _, _ | .call _ _ _, _
  | .function _ _, _ | .unary _ _ _, _ | .binary _ _ _ _, _ => by
    simp only [evaluate]
    exact .done _

theorem attributable_fillObject (id : ObjectId) : ∀ properties : List (Property Expression),
    (∀ name ∈ readsOfProperties properties, used name) →
    (fillObject id properties).Attributable late (Fault.DueTo used)
  | [], _ => by
    rw [fillObject]
    exact .done _
  | ⟨_, .name key, value⟩ :: rest, reads => by
    rw [fillObject]
    rw [readsOfProperties] at reads
    refine .bind (attributable_evaluate value fun name hn => ?_) fun value => ?_
    · exact reads name (List.mem_append_left _ hn)
    refine .bind (.perform (by simp)) fun _ => ?_
    refine .bind (.asks _) fun shown => ?_
    refine .bind (.record _ Fault.dueTo_stepLimit) fun _ => ?_
    exact attributable_fillObject id rest fun name hn => reads name (List.mem_append_right _ hn)
  | ⟨_, .str _, _⟩ :: rest, reads | ⟨_, .num _, _⟩ :: rest, reads => by
    simp only [fillObject]
    exact attributable_fillObject id rest (by simpa only [readsOfProperties] using reads)

end

theorem attributable_declare (kind : DeclarationKind) (declarators : List Declarator)
    (reads : ∀ d ∈ declarators, ∀ name ∈ d.reads, used name) :
    (declare kind declarators).Attributable late (Fault.DueTo used) := by
  induction declarators with
  | nil =>
    rw [declare]
    exact .done _
  | cons declarator rest ih =>
    have further := ih fun d hd => reads d (List.mem_cons_of_mem _ hd)
    have here := reads declarator List.mem_cons_self
    obtain ⟨_, name, init⟩ := declarator
    cases init with
    | none =>
      rw [declare]
      exact further
    | some init =>
      rw [declare]
      refine .bind (attributable_evaluate init here) fun value => ?_
      refine .bind (.asks _) fun shown => ?_
      refine .bind (.record _ Fault.dueTo_stepLimit) fun _ => ?_
      exact .bind (.hold _ _) fun _ => further

theorem attributable_assignVariable (name : String) (right : Expression)
    (reads : ∀ name ∈ right.reads, used name) :
    (assignVariable name right).Attributable late (Fault.DueTo used) := by
  rw [assignVariable]
  refine .bind (attributable_evaluate right reads) fun value => ?_
  refine .bind (.asks _) fun shown => ?_
  exact .bind (.record _ Fault.dueTo_stepLimit) fun _ => .hold _ _

theorem attributable_assignProperty (object : Expression) (property : String) (right : Expression)
    (reads : ∀ name ∈ right.reads ++ object.reads, used name) :
    (assignProperty object property right).Attributable late (Fault.DueTo used) := by
  rw [assignProperty]
  refine .bind (attributable_evaluate right fun name hn => ?_) fun value => ?_
  · exact reads name (List.mem_append_left _ hn)
  refine .bind (attributable_evaluate object fun name hn => ?_) fun base => ?_
  · exact reads name (List.mem_append_right _ hn)
  split
  · refine .bind (.asks _) fun shown => ?_
    exact .bind (.record _ Fault.dueTo_stepLimit) fun _ => .perform (by simp)
  · exact .raise (Fault.dueTo_of_kind_ne (by simp [Fault.kind]))

theorem attributable_callMethod (object : Expression) (method : String)
    (arguments : List Expression)
    (reads : ∀ argument rest, arguments = argument :: rest → ∀ name ∈ argument.reads, used name) :
    (callMethod object method arguments).Attributable late (Fault.DueTo used) := by
  rw [callMethod]
  refine .bind (.record _ Fault.dueTo_stepLimit) fun _ => ?_
  refine .bind ?_ fun value => ?_
  · cases arguments with
    | nil => exact .done _
    | cons argument rest => exact attributable_evaluate argument (reads argument rest rfl)
  · exact .bind (.asks _) fun shown => .record _ Fault.dueTo_stepLimit

/-- A statement, if the calls that it makes keep the same. -/
theorem attributable_execute {call : String → Exec Unit}
    (calls : ∀ name, used name → (call name).Attributable late (Fault.DueTo used)) (s : Statement)
    (reads : ∀ name ∈ s.reads, used name) :
    (execute call s).Attributable late (Fault.DueTo used) := by
  unfold execute
  split
  · refine attributable_declare _ _ fun d hd name hn => reads name ?_
    exact List.mem_flatMap.mpr ⟨d, hd, hn⟩
  · unfold executeExpression
    split
    · exact attributable_assignVariable _ _ reads
    · exact attributable_assignProperty _ _ _ reads
    · refine attributable_callMethod _ _ _ ?_
      rintro argument rest rfl
      exact reads
    · exact calls _ (reads _ (List.mem_singleton_self _))
    · exact .done _
  · exact .done _

theorem attributable_executeAll {call : String → Exec Unit}
    (calls : ∀ name, used name → (call name).Attributable late (Fault.DueTo used))
    (statements : List Statement) (reads : ∀ s ∈ statements, ∀ name ∈ s.reads, used name) :
    (executeAll call statements).Attributable late (Fault.DueTo used) := by
  induction statements with
  | nil =>
    rw [executeAll]
    exact .done _
  | cons s rest ih =>
    rw [executeAll]
    refine .bind (attributable_execute calls s (reads s List.mem_cons_self)) fun _ => ?_
    exact ih fun s' hs' => reads s' (List.mem_cons_of_mem _ hs')

/-! ## Calls -/

/-- A body in a frame of its own.  After a fault the frame is left, and the state that is to blame
stays the one inside. -/
theorem attributable_inFrame (name : String) (id : FunctionId)
    {body : ScopeId → ScopeId → Exec Unit}
    (each : ∀ scope outer, (body scope outer).Attributable late (Fault.DueTo used)) :
    (inFrame name id body).Attributable late (Fault.DueTo used) := by
  rw [inFrame]
  refine .bind (.asks _) fun depth => ?_
  refine .bind (.record _ Fault.dueTo_stepLimit) fun _ => ?_
  refine .bind (.asks _) fun scope => ?_
  refine .bind (.asks _) fun outer => ?_
  refine .bind (.perform (by simp)) fun _ => ?_
  intro m h
  refine .attempt (each scope outer m h) (fun _ m₁ h₁ _ => ?_) fun fault m₁ h₁ => ?_
  · refine Attributable.bind (.perform (by simp)) (fun _ => ?_) m₁ h₁
    exact .bind (.asks _) fun depth => .record _ Fault.dueTo_stepLimit
  · have left : ∀ {m : Machine} {effect : Effect}, m.LateOnly late →
        (∀ name binding, effect ≠ .bind name binding) → (effect.apply m).LateOnly late :=
      fun h ne => h.apply fun name binding is => absurd is (ne name binding)
    refine .bind (.perform h₁ (left h₁ (by simp))) fun _ m₂ h₂ _ => ?_
    exact .bind (.perform h₂ (left h₂ (by simp))) fun _ m₃ h₃ _ => .raise h₃ rfl

variable {program : Program}

/-- **A call keeps this**, by induction on the allowance. -/
theorem attributable_callFunction
    (lexical : ∀ s ∈ program.statements, ∀ name ∈ s.lexicalNames, late name)
    (reads : ∀ s ∈ program.statements, ∀ name ∈ s.reads, used name) (limit allowance : Nat)
    (name : String) (isUsed : used name) :
    (callFunction program limit allowance name).Attributable late (Fault.DueTo used) := by
  induction allowance generalizing name with
  | zero =>
    rw [callFunction]
    refine .bind (.record _ Fault.dueTo_stepLimit) fun _ => ?_
    refine .bind (.asksOrRaises (Fault.dueTo_callee isUsed)) fun id => ?_
    exact .raise (Fault.dueTo_of_kind_ne (by simp [Fault.kind]))
  | succ allowance ih =>
    rw [callFunction]
    refine .bind (.record _ Fault.dueTo_stepLimit) fun _ => ?_
    refine .bind (.asksOrRaises (Fault.dueTo_callee isUsed)) fun id => ?_
    refine attributable_inFrame name id fun scope outer => ?_
    rw [runBody]
    refine .bind (.record _ Fault.dueTo_stepLimit) fun _ => ?_
    cases there : program.function? id with
    | none => exact .raise (Fault.dueTo_of_kind_ne (by simp [Fault.kind]))
    | some definition =>
      have inside {s : Statement} (hs : s ∈ definition.body) :=
        Program.mem_statements_of_function? there hs
      refine .bind (attributable_hoist Fault.dueTo_stepLimit _ _ fun s hs => ?_) fun _ => ?_
      · exact lexical s (inside hs)
      · exact attributable_executeAll ih _ fun s hs => reads s (inside hs)

theorem attributable_executeStatements
    (lexical : ∀ s ∈ program.statements, ∀ name ∈ s.lexicalNames, late name)
    (reads : ∀ s ∈ program.statements, ∀ name ∈ s.reads, used name) (limit : Nat)
    (statements : List Statement) (direct : ∀ s ∈ statements, s ∈ program.statements) :
    (executeStatements program limit statements).Attributable late (Fault.DueTo used) := by
  induction statements with
  | nil =>
    rw [executeStatements]
    exact .done _
  | cons s rest ih =>
    rw [executeStatements]
    have further := ih fun s' hs' => direct s' (List.mem_cons_of_mem _ hs')
    refine .bind (fun m h => .look ?_) fun _ => further
    have calls := attributable_callFunction lexical reads limit (limit - m.stack.depth)
    exact attributable_execute calls s (reads s (direct s List.mem_cons_self)) m h

end

/-! ## What a script binds before it runs -/

/-- A state with nothing but the frame of the script on the stack. -/
structure Machine.AtBottom (m : Machine) : Prop where
  linked : m.Linked
  currentScope_eq : m.currentScope = globalScope

namespace Machine.AtBottom

variable {m : Machine}

theorem apply (h : m.AtBottom) {effect : Effect} (calm : effect.isCalm = true) :
    (effect.apply m).AtBottom where
  linked := h.linked.apply effect
  currentScope_eq := by
    rw [currentScope, Effect.stack_apply_of_isCalm calm]
    exact h.currentScope_eq

/-- A binding of the running frame is one of the script. -/
theorem bindsGlobally_bind (h : m.AtBottom) (name : String) (binding : Binding) :
    ((Effect.bind name binding).apply m).BindsGlobally name := by
  obtain ⟨scope, there, -⟩ := Option.map_eq_some_iff.mp h.linked.wellLinked.link?_global
  show ((m.scopes.put m.currentScope name binding).binding? name globalScope).isSome
  rw [h.currentScope_eq, Scopes.binding?_put, if_pos ⟨rfl, rfl⟩, there]
  rfl

/-- What hoisting keeps and binds: the statements stay those of the script, and the names are bound
in its scope. -/
abbrev Hoists (names : List String) (x : Exec Unit) (m : Machine) : Prop :=
  x.Meets AtBottom (fun fault _ => ∃ limit, fault = .stepLimit limit)
    (fun _ m' => ∀ name ∈ names, m'.BindsGlobally name) m

/-- A step, and what comes after it. -/
theorem record_bind (h : m.AtBottom) {event : Event} (unmarked : event.marksFrame = false)
    {names : List String} {next : Unit → Exec Unit}
    (each : ∀ m' : Machine, m'.AtBottom → Hoists names (next ()) m') :
    Hoists names (record event >>= next) m := by
  have calm : (Effect.record event).isCalm = true := by simp [Effect.isCalm, unmarked]
  exact .bind (.record h (h.apply calm) fun limit => ⟨limit, rfl⟩) fun _ m' h' _ => each m' h'

theorem bind (h : m.AtBottom) (name : String) (binding : Binding) :
    Hoists [name] (.perform (.bind name binding)) m := by
  refine (Meets.perform h (h.apply rfl)).mono ?_
  rintro _ _ rfl other mem
  rw [List.mem_singleton.mp mem]
  exact h.bindsGlobally_bind name binding

/-- One after another: what is bound stays bound. -/
theorem Hoists.andThen {names more : List String} {x : Exec Unit} {next : Unit → Exec Unit}
    (first : Hoists names x m) (each : ∀ m' : Machine, m'.AtBottom → Hoists more (next ()) m') :
    Hoists (names ++ more) (x >>= next) m := by
  refine .bind first fun _ m' h' bound => ?_
  have kept := (each m' h').frame (P := fun s => ∀ name ∈ names, s.BindsGlobally name)
    (fun effect s all name mem => (all name mem).apply effect) bound
  refine kept.mono fun _ s both name mem => ?_
  rcases List.mem_append.mp mem with mem | mem
  · exact both.2 name mem
  · exact both.1 name mem

end Machine.AtBottom

open Machine.AtBottom

theorem hoists_hoistFunction (name : String) (id : FunctionId) {m : Machine} (h : m.AtBottom) :
    Hoists [name] (hoistFunction name id) m := by
  rw [hoistFunction]
  refine h.record_bind rfl fun m₁ h₁ => ?_
  refine Exec.Meets.bind (.perform h₁ (h₁.apply rfl)) fun _ m₂ h₂ _ => ?_
  refine .bind (.asks h₂ _) ?_
  rintro _ _ _ ⟨rfl, rfl⟩
  exact h₂.record_bind rfl fun m₃ h₃ => h₃.bind name _

theorem hoists_hoistVariables (kind : DeclarationKind) (declarators : List Declarator) {m : Machine}
    (h : m.AtBottom) :
    Hoists (declarators.map fun d => d.name.name) (hoistVariables kind declarators) m := by
  induction declarators generalizing m with
  | nil =>
    rw [hoistVariables]
    exact .done h (List.forall_mem_nil _)
  | cons declarator rest ih =>
    rw [hoistVariables]
    refine Exec.Meets.bind (.asks h _) ?_
    rintro _ _ _ ⟨rfl, rfl⟩
    refine h.record_bind rfl fun m₁ h₁ => ?_
    exact Hoists.andThen (h₁.bind declarator.name.name kind.hoisted) fun m₂ h₂ => ih h₂

/-- **A script binds the names that it declares** before its first statement runs. -/
theorem hoists_hoist (statements : List Statement) {m : Machine} (h : m.AtBottom) :
    Hoists (statements.flatMap Statement.declaredNames) (hoist .script statements) m := by
  induction statements generalizing m with
  | nil =>
    rw [hoist]
    exact .done h (List.forall_mem_nil _)
  | cons s rest ih =>
    rw [List.flatMap_cons]
    cases s with
    | functionDeclaration span name id =>
      rw [hoist, if_pos rfl]
      exact Hoists.andThen (hoists_hoistFunction name.name id h) fun _ h₁ => ih h₁
    | «variables» declaration =>
      rw [hoist]
      exact Hoists.andThen (hoists_hoistVariables _ _ h) fun _ h₁ => ih h₁
    | _ =>
      simp only [hoist, Statement.declaredNames, List.nil_append]
      exact ih h

/-! ## Traces -/

namespace Fault

theorem message_notDefined_inj {first second : String}
    (same : (notDefined first).message = "'" ++ second ++ "' is not defined") :
    first = second := by
  have inner := (String.append_left_inj _).mp same
  exact (String.append_right_inj _).mp inner

theorem message_uninitialized_inj {first second : String}
    (same : (uninitialized first).message =
      "Cannot access '" ++ second ++ "' before initialization") : first = second := by
  have inner := (String.append_left_inj _).mp same
  exact (String.append_right_inj _).mp inner

/-- The two messages never agree: they begin with different characters. -/
theorem message_notDefined_ne (first second : String) :
    (notDefined first).message ≠ (uninitialized second).message := by
  intro same
  have heads : ("'" ++ first ++ "' is not defined").toList.head? =
      ("Cannot access '" ++ second ++ "' before initialization").toList.head? :=
    congrArg (fun text => text.toList.head?) same
  simp at heads

end Fault

namespace Program

/-- A name is declared by `let` or `const` directly in the script or in the body of a function. -/
def DeclaresLexically (p : Program) (name : String) : Prop :=
  ∃ s ∈ p.statements, name ∈ s.lexicalNames

/-- A name is read or called by a statement directly in the script or in the body of a function. -/
def Reads (p : Program) (name : String) : Prop :=
  ∃ s ∈ p.statements, name ∈ s.reads

end Program

/-- Where a fault of reference surfaces, a name that the program reads cannot be read, the names
that the script declares are bound in its scope, and only variables of `let` and `const` lack a
value. -/
theorem exists_unread_of_fault {config : Config} {program : Program} {fault : Fault}
    (stopped : (runProgram config program).fault = some fault)
    (reference : fault.kind = .referenceError) :
    ∃ (name : String) (m : Machine), program.Reads name ∧ m.lookup name = .error fault ∧
      m.Linked ∧ m.LateOnly program.DeclaresLexically ∧
      ∀ s ∈ program.body, ∀ declared ∈ s.declaredNames, m.BindsGlobally declared := by
  have direct : ∀ s ∈ program.body, s ∈ program.statements := fun s hs => List.mem_append_left _ hs
  have lexical : ∀ s ∈ program.statements, ∀ name ∈ s.lexicalNames,
      program.DeclaresLexically name := fun s hs name hn => ⟨s, hs, hn⟩
  have reads : ∀ s ∈ program.statements, ∀ name ∈ s.reads, program.Reads name :=
    fun s hs name hn => ⟨s, hs, hn⟩
  have start : (Machine.initial config).AtBottom := ⟨Machine.linked_initial config, rfl⟩
  -- the declarations are hoisted first, and that can only exceed the number of steps
  let hoisting : Exec Unit := do
    record (.enterScript config.globalFrameName)
    hoist .script program.body
  have split : runScript config program =
      hoisting >>= fun _ => executeStatements program config.callDepthLimit program.body := by
    rw [runScript, bind_assoc]
  have hoisted : Hoists (program.body.flatMap Statement.declaredNames) hoisting (.initial config) :=
    start.record_bind rfl fun _ h => hoists_hoist program.body h
  have kept : hoisting.Attributable program.DeclaresLexically (Fault.DueTo program.Reads) :=
    .bind (.record _ Fault.dueTo_stepLimit) fun _ =>
      attributable_hoist Fault.dueTo_stepLimit _ _ fun s hs => lexical s (direct s hs)
  have late := (kept _ (Machine.lateOnly_initial _ config)).always_of_mem _
    (hoisting.run_mem_states _)
  have bottom := hoisted.always_of_mem _ (hoisting.run_mem_states _)
  rcases opened : hoisting.run (.initial config) with ⟨early | _, m⟩
  · obtain ⟨-, -, limit, rfl⟩ := hoisted.blames_of_error opened
    rw [runProgram_of_fault (split ▸ Exec.run_bind_of_error opened _)] at stopped
    cases stopped
    simp [Fault.kind] at reference
  rw [opened] at late bottom
  have bound := hoisted.ensures_of_ok opened
  rcases ended : (executeStatements program config.callDepthLimit program.body).run m with
    ⟨last | _, m'⟩
  · have run := (Exec.run_bind_of_ok opened fun _ =>
      executeStatements program config.callDepthLimit program.body).trans ended
    rw [runProgram_of_fault (split ▸ run)] at stopped
    cases stopped
    have after := attributable_executeStatements lexical reads config.callDepthLimit program.body
      direct m late
    obtain ⟨s, reached, due⟩ := after.blames_of_error ended
    obtain ⟨name, isRead, unread⟩ := due reference
    refine ⟨name, s, isRead, unread, ?_, after.always_of_mem s reached, ?_⟩
    · exact forall_states_of_forall_effect (fun effect _ h => h.apply effect) _ bottom.linked s
        reached
    · intro statement hs declared hd
      exact forall_states_of_forall_effect (fun effect _ h => h.apply effect) _
        (bound declared (List.mem_flatMap.mpr ⟨statement, hs, hd⟩)) s reached
  · have run := (Exec.run_bind_of_ok opened fun _ =>
      executeStatements program config.callDepthLimit program.body).trans ended
    rw [runProgram_of_result (split ▸ run)] at stopped
    cases stopped

/-- **What faults of reference say about declarations.**  If a run stops because a name is not
defined, no statement of the script itself declares the name, by whatever word.  If it stops because
a variable is read before its declaration has run, a `let` or `const` of the variable stands
directly in the script or in the body of a function.  So a program without such declarations never
stops with a fault of reference, if the script itself declares every name that is read or called
anywhere, in whatever order. -/
theorem reference_faults_of_runProgram (config : Config) (program : Program) :
    (∀ fault, (runProgram config program).fault = some fault → fault.kind = .referenceError →
      (∀ x, fault.message = "'" ++ x ++ "' is not defined" →
        ∀ s ∈ program.body, x ∉ s.declaredNames) ∧
      ∀ x, fault.message = "Cannot access '" ++ x ++ "' before initialization" →
        ∃ s ∈ program.statements, x ∈ s.lexicalNames) ∧
    ((∀ s ∈ program.statements, s.lexicalNames = []) →
      (∀ s ∈ program.statements, ∀ x ∈ s.reads, ∃ t ∈ program.body, x ∈ t.declaredNames) →
      ∀ fault, (runProgram config program).fault = some fault → fault.kind ≠ .referenceError) := by
  refine ⟨fun fault stopped reference => ?_, fun plain declared fault stopped reference => ?_⟩
  · obtain ⟨name, m, -, unread, linked, late, bound⟩ := exists_unread_of_fault stopped reference
    rcases Machine.lookup_eq_error unread with rfl | rfl
    · refine ⟨fun x message s hs declares => ?_, fun x message => ?_⟩
      · obtain rfl := Fault.message_notDefined_inj message
        exact (bound s hs name declares).lookup_ne linked unread
      · exact absurd message (Fault.message_notDefined_ne name x)
    · refine ⟨fun x message => ?_, fun x message => ?_⟩
      · exact absurd message.symm (Fault.message_notDefined_ne x name)
      · obtain rfl := Fault.message_uninitialized_inj message
        exact late.late_of_lookup linked unread
  · obtain ⟨name, m, isRead, unread, linked, late, bound⟩ :=
      exists_unread_of_fault stopped reference
    rcases Machine.lookup_eq_error unread with rfl | rfl
    · obtain ⟨s, hs, reads⟩ := isRead
      obtain ⟨t, ht, declares⟩ := declared s hs name reads
      exact (bound t ht name declares).lookup_ne linked unread
    · obtain ⟨s, hs, lexical⟩ := late.late_of_lookup linked unread
      rw [plain s hs] at lexical
      exact nomatch lexical

/-- A script whose function reads a variable before its declaration has run:
`function f() { b = a; } f(); let a = true;`. -/
def earlyCall : Program where
  body :=
    [.functionDeclaration ⟨0, 0⟩ ⟨"f", ⟨0, 0⟩⟩ 0, callOfF,
      .variables ⟨⟨0, 0⟩, .letKind, [⟨⟨0, 0⟩, ⟨"a", ⟨0, 0⟩⟩, some (.literal ⟨0, 0⟩ (.bool true))⟩]⟩]
  functions := failingCall.functions

/-- The three scripts differ in the declaration of `a` only: without one `a` is not defined, with a
`let` after the call it cannot be read yet, and with a `var` there is no fault of reference, also
when there may be no more than three steps. -/
theorem reference_faults_of_calls :
    ((runProgram {} failingCall).fault = some (.notDefined "a") ∧
      ∀ s ∈ failingCall.body, "a" ∉ s.declaredNames) ∧
    ((runProgram {} earlyCall).fault = some (.uninitialized "a") ∧
      ∃ s ∈ earlyCall.statements, "a" ∈ s.lexicalNames) ∧
    (runProgram { maxSteps := some 3 } readingCall).fault = some (.stepLimit 3) ∧
    ∀ fault, (runProgram { maxSteps := some 3 } readingCall).fault = some fault →
      fault.kind ≠ .referenceError := by
  have undefined : (runProgram {} failingCall).fault = some (.notDefined "a") := by decide
  have early : (runProgram {} earlyCall).fault = some (.uninitialized "a") := by decide
  obtain ⟨first, -⟩ := reference_faults_of_runProgram {} failingCall
  obtain ⟨second, -⟩ := reference_faults_of_runProgram {} earlyCall
  obtain ⟨-, third⟩ := reference_faults_of_runProgram { maxSteps := some 3 } readingCall
  refine ⟨⟨undefined, (first _ undefined rfl).1 "a" rfl⟩, ⟨early, (second _ early rfl).2 "a" rfl⟩,
    by decide, third (by decide) (by decide)⟩

end ScriptTrace
