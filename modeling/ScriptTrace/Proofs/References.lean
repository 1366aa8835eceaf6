import ScriptTrace.Proofs.Contract
import ScriptTrace.Proofs.ScopeChain
import ScriptTrace.Proofs.SourceStretches

/-!
# References of parsed programs

Objects and functions are values by reference: an object by an index into the heap, a function by a
name in the table of functions, and a function of the table by an index into the array of functions
of the program.  Nothing in the types keeps a reference from leading nowhere, and the interpreter
has a branch for each that does: an object that is not there has no properties and takes none, and a
function that is not there cannot be called.

In a run of a parsed program these branches are never taken.

## The invariant

`Machine.Grounded` says that all values in bindings and properties refer to something, and that all
indices in the table of functions do.  It is no invariant of every effect, since an effect may bind
any value.  But nothing is ever taken out of the heap, so a value that refers to something always
will (`Effect.has_apply`); and every effect of a run writes a value that refers to something when it
is written (`Machine.Grounded.apply`), because values come from literals, from new objects, from
bindings and from properties.

* `meets_evaluate`: the value of an expression refers to something.
* `meets_runScript`: every state of a run is grounded.
* `parsed_references_lead_somewhere`: this, and what follows for properties and calls.
-/

namespace ScriptTrace

/-! ## Entries of tables -/

namespace Table

variable {α : Type} {t : Table α} {key : String} {value : α}

theorem mem_entries_of_get? (h : t.get? key = some value) : (key, value) ∈ t.entries := by
  obtain ⟨entries⟩ := t
  induction entries with
  | nil => exact nomatch h
  | cons e rest ih =>
    obtain ⟨k, v⟩ := e
    rw [get?, getIn?] at h
    split at h
    · rename_i same
      rw [same, Option.some.inj h]
      exact List.mem_cons_self
    · exact List.mem_cons_of_mem _ (ih h)

/-- An entry after a write is the one written or was there before. -/
theorem mem_entries_put {e : String × α} (h : e ∈ (t.put key value).entries) :
    e = (key, value) ∨ e ∈ t.entries := by
  obtain ⟨entries⟩ := t
  induction entries with
  | nil => exact Or.inl (List.mem_singleton.mp h)
  | cons first rest ih =>
    obtain ⟨k, v⟩ := first
    rw [put, putIn] at h
    split at h
    · rename_i same
      rcases List.mem_cons.mp h with here | further
      · exact Or.inl (same ▸ here)
      · exact Or.inr (List.mem_cons_of_mem _ further)
    · rcases List.mem_cons.mp h with here | further
      · exact Or.inr (here ▸ List.mem_cons_self)
      · rcases ih further with written | old
        · exact Or.inl written
        · exact Or.inr (List.mem_cons_of_mem _ old)

end Table

/-! ## Values that refer to something -/

/-- A value refers to an object or a function of the heap, if it refers to anything. -/
def Heap.Has (h : Heap) : Value → Prop
  | .object id => id < h.objects.size
  | .function name => (h.function? name).isSome
  | .undefined | .null | .bool _ | .str _ | .num _ => True

theorem Heap.has_ofLiteral (h : Heap) (literal : Literal) : h.Has (.ofLiteral literal) := by
  cases literal <;> trivial

/-- Nothing is ever taken out of the heap. -/
theorem Effect.has_apply {value : Value} (effect : Effect) (m : Machine)
    (has : m.heap.Has value) : (effect.apply m).heap.Has value := by
  cases value with
  | object id =>
    have inside : id < m.heap.objects.size := has
    cases effect with
    | allocate => exact Nat.lt_trans inside m.heap.lt_size_allocate
    | setProperty other key value =>
      show id < (m.heap.setProperty other key value).objects.size
      rwa [Heap.size_setProperty]
    | _ => exact inside
  | function name =>
    have stored : (m.heap.function? name).isSome := has
    cases effect with
    | storeFunction other id =>
      show ((m.heap.functions.put other id).get? name).isSome
      rw [Table.get?_put]
      split
      · rfl
      · exact stored
    | _ => exact stored
  | _ => trivial

/-! ## Bindings that are found -/

/-- What the search for a name finds is a binding of a scope. -/
theorem Scopes.exists_of_resolveWithin {s : Scopes} {name : String} {steps : Nat}
    {start id : ScopeId} {binding : Binding}
    (found : s.resolveWithin name steps start = some (id, binding)) :
    ∃ scope, s.get? id = some scope ∧ scope.bindings.get? name = some binding := by
  induction steps generalizing start with
  | zero => cases found
  | succ steps ih =>
    rw [resolveWithin] at found
    cases here : s.get? start with
    | none =>
      rw [here] at found
      cases found
    | some scope =>
      simp only [here] at found
      cases bound : scope.bindings.get? name with
      | some own =>
        simp only [bound] at found
        cases found
        exact ⟨scope, here, bound⟩
      | none =>
        simp only [bound] at found
        obtain ⟨outer, -, further⟩ := Option.bind_eq_some_iff.mp found
        exact ih further

namespace Machine

/-- A variable that can be read is an initialized binding of a scope. -/
theorem exists_of_lookup {m : Machine} {name : String} {value : Value}
    (read : m.lookup name = .ok value) :
    ∃ id scope binding, m.scopes.get? id = some scope ∧
      scope.bindings.get? name = some binding ∧ binding.value.getD .undefined = value := by
  rw [lookup] at read
  cases found : m.scopes.resolve? m.currentScope name with
  | none =>
    rw [found] at read
    cases read
  | some p =>
    obtain ⟨id, binding⟩ := p
    obtain ⟨scope, here, bound⟩ := Scopes.exists_of_resolveWithin found
    refine ⟨id, scope, binding, here, bound, ?_⟩
    cases initialized : binding.initialized with
    | false => simp [found, Binding.read?, initialized] at read
    | true => simpa [found, Binding.read?, initialized] using read

theorem lookup_eq_error {m : Machine} {name : String} {fault : Fault}
    (unread : m.lookup name = .error fault) :
    fault = .notDefined name ∨ fault = .uninitialized name := by
  rw [lookup] at unread
  split at unread
  · exact Or.inl (Except.error.inj unread).symm
  · split at unread
    · exact Or.inr (Except.error.inj unread).symm
    · cases unread

/-- What a call of a name finds. -/
inductive Calls (m : Machine) (name : String) : Except Fault FunctionId → Prop
  /-- A function is stored under the name. -/
  | stored {id : FunctionId} (own : m.heap.function? name = some id) : Calls m name (.ok id)
  /-- A variable of the name cannot be read. -/
  | unread {fault : Fault} (unstored : m.heap.function? name = none)
      (read : m.lookup name = .error fault) : Calls m name (.error fault)
  /-- A variable of the name holds a function. -/
  | held {target : String} {id : FunctionId} (unstored : m.heap.function? name = none)
      (read : m.lookup name = .ok (.function target)) (there : m.heap.function? target = some id) :
      Calls m name (.ok id)
  /-- A variable of the name holds a reference to no function. -/
  | missing {target : String} (unstored : m.heap.function? name = none)
      (read : m.lookup name = .ok (.function target)) (gone : m.heap.function? target = none) :
      Calls m name (.error (.notAFunction name))
  /-- A variable of the name holds another value. -/
  | other {value : Value} (unstored : m.heap.function? name = none)
      (read : m.lookup name = .ok value) (differs : ∀ target, value ≠ .function target) :
      Calls m name (.error (.notAFunction name))

theorem calls_callee (m : Machine) (name : String) : m.Calls name (m.callee name) := by
  rw [callee]
  cases own : m.heap.function? name with
  | some id => exact .stored own
  | none =>
    cases read : m.lookup name with
    | error fault => exact .unread own read
    | ok value =>
      cases value with
      | function target =>
        cases there : m.heap.function? target with
        | none =>
          simp only [there]
          exact .missing own read there
        | some id =>
          simp only [there]
          exact .held own read there
      | _ => exact .other own read nofun

end Machine

/-! ## The invariant -/

namespace Machine

/-- All values in bindings and properties refer to something, and the table of functions holds
indices of functions of the program. -/
structure Grounded (program : Program) (m : Machine) : Prop where
  binding_has : ∀ id scope, m.scopes.get? id = some scope → ∀ entry ∈ scope.bindings.entries,
    ∀ value, entry.2.value = some value → m.heap.Has value
  property_has : ∀ id object, m.heap.object? id = some object → ∀ entry ∈ object.entries,
    m.heap.Has entry.2
  function_lt : ∀ entry ∈ m.heap.functions.entries, entry.2 < program.functions.size

variable {program : Program} {m : Machine}

theorem grounded_initial (program : Program) (config : Config) :
    (Machine.initial config).Grounded program where
  binding_has id scope here entry he := by
    cases id with
    | zero =>
      rw [← Option.some.inj here] at he
      exact nomatch he
    | succ _ => exact nomatch here
  property_has id object here := by simp [Heap.object?, Machine.initial] at here
  function_lt entry he := nomatch he

/-- An effect writes only what refers to something. -/
def Admits (program : Program) (m : Machine) : Effect → Prop
  | .bind _ binding => ∀ value, binding.value = some value → m.heap.Has value
  | .setProperty _ _ value => m.heap.Has value
  | .storeFunction _ id => id < program.functions.size
  | .record _ | .allocate | .enter _ _ | .leave | .noteFault => True

namespace Grounded

theorem bind (h : m.Grounded program) {name : String} {binding : Binding}
    (has : ∀ value, binding.value = some value → m.heap.Has value) :
    ((Effect.bind name binding).apply m).Grounded program where
  binding_has id scope here entry he value held := by
    change (m.scopes.put m.currentScope name binding).get? id = some scope at here
    rw [Scopes.get?_put] at here
    split at here
    · obtain ⟨old, there, rfl⟩ := Option.map_eq_some_iff.mp here
      rcases Table.mem_entries_put he with rfl | he
      · exact has value held
      · exact h.binding_has id old there entry he value held
    · exact h.binding_has id scope here entry he value held
  property_has := h.property_has
  function_lt := h.function_lt

theorem enter (h : m.Grounded program) (name : String) (function : Option FunctionId) :
    ((Effect.enter name function).apply m).Grounded program where
  binding_has id scope here entry he := by
    change (m.scopes.add name m.currentScope).get? id = some scope at here
    rw [Scopes.get?_add] at here
    split at here
    · rw [← Option.some.inj here] at he
      exact nomatch he
    · exact h.binding_has id scope here entry he
  property_has := h.property_has
  function_lt := h.function_lt

theorem setProperty (h : m.Grounded program) {target : ObjectId} {key : String} {value : Value}
    (has : m.heap.Has value) :
    ((Effect.setProperty target key value).apply m).Grounded program where
  binding_has id scope here entry he held isHeld :=
    Effect.has_apply _ m (h.binding_has id scope here entry he held isHeld)
  property_has id object here entry he := by
    apply Effect.has_apply
    change (m.heap.setProperty target key value).object? id = some object at here
    rw [Heap.object?_setProperty] at here
    split at here
    · obtain ⟨old, there, rfl⟩ := Option.map_eq_some_iff.mp here
      rcases Table.mem_entries_put he with rfl | he
      · exact has
      · exact h.property_has id old there entry he
    · exact h.property_has id object here entry he
  function_lt := h.function_lt

theorem allocate (h : m.Grounded program) : (Effect.allocate.apply m).Grounded program where
  binding_has id scope here entry he held isHeld :=
    Effect.has_apply _ m (h.binding_has id scope here entry he held isHeld)
  property_has id object here entry he := by
    apply Effect.has_apply
    change m.heap.allocate.object? id = some object at here
    rw [Heap.object?_allocate] at here
    split at here
    · rw [← Option.some.inj here] at he
      exact nomatch he
    · exact h.property_has id object here entry he
  function_lt := h.function_lt

theorem storeFunction (h : m.Grounded program) {name : String} {id : FunctionId}
    (inside : id < program.functions.size) :
    ((Effect.storeFunction name id).apply m).Grounded program where
  binding_has id scope here entry he held isHeld :=
    Effect.has_apply _ m (h.binding_has id scope here entry he held isHeld)
  property_has id object here entry he :=
    Effect.has_apply _ m (h.property_has id object here entry he)
  function_lt entry he := by
    rcases Table.mem_entries_put he with rfl | he
    · exact inside
    · exact h.function_lt entry he

/-- **The step**: an effect that writes only what refers to something keeps the invariant. -/
theorem apply (h : m.Grounded program) {effect : Effect} (admitted : m.Admits program effect) :
    (effect.apply m).Grounded program := by
  cases effect with
  | bind name binding => exact h.bind admitted
  | enter name function => exact h.enter name function
  | setProperty id key value => exact h.setProperty admitted
  | allocate => exact h.allocate
  | storeFunction name id => exact h.storeFunction admitted
  | _ => exact ⟨h.binding_has, h.property_has, h.function_lt⟩

/-! ## What a grounded state answers -/

/-- A variable that can be read holds a value that refers to something. -/
theorem has_of_lookup (h : m.Grounded program) {name : String} {value : Value}
    (read : m.lookup name = .ok value) : m.heap.Has value := by
  obtain ⟨id, scope, binding, here, bound, rfl⟩ := exists_of_lookup read
  cases held : binding.value with
  | none => trivial
  | some value =>
    exact h.binding_has id scope here _ (Table.mem_entries_of_get? bound) value held

/-- A property of any value holds a value that refers to something. -/
theorem has_property (h : m.Grounded program) (base : Value) (key : String) :
    m.heap.Has (m.heap.property base key) := by
  rw [Heap.property]
  cases found : (base.objectId?.bind m.heap.object?).bind fun o => o.get? key with
  | none => trivial
  | some value =>
    obtain ⟨object, there, got⟩ := Option.bind_eq_some_iff.mp found
    obtain ⟨id, -, there⟩ := Option.bind_eq_some_iff.mp there
    exact h.property_has id object there _ (Table.mem_entries_of_get? got)

/-- A name calls a function of the program. -/
theorem function_lt_of_callee (h : m.Grounded program) {name : String} {id : FunctionId}
    (called : m.callee name = .ok id) : id < program.functions.size := by
  have calls := m.calls_callee name
  rw [called] at calls
  cases calls with
  | stored own => exact h.function_lt _ (Table.mem_entries_of_get? own)
  | held _ _ there => exact h.function_lt _ (Table.mem_entries_of_get? there)

/-- If a name cannot be called because it is no function, a variable of the name holds a value that
is no function. -/
theorem lookup_of_callee (h : m.Grounded program) {name other : String}
    (called : m.callee name = .error (.notAFunction other)) :
    other = name ∧ ∃ value, m.lookup name = .ok value ∧ ∀ target, value ≠ .function target := by
  have calls := m.calls_callee name
  rw [called] at calls
  cases calls with
  | unread _ read => rcases lookup_eq_error read with fault | fault <;> exact nomatch fault
  | missing _ read gone =>
    have there : (m.heap.function? _).isSome := h.has_of_lookup read
    rw [gone] at there
    exact nomatch there
  | other _ read differs => exact ⟨rfl, _, read, differs⟩

end Grounded

/-- The fault that something is no function surfaces where a call of a name finds none. -/
def Blames (fault : Fault) (m : Machine) : Prop :=
  ∀ name, fault = .notAFunction name → m.callee name = .error fault

end Machine

/-- What executions of a program keep: all states are grounded, and only the search for a callee
raises the fault that there is no function. -/
abbrev Exec.Sound {α : Type} (program : Program) (ensures : α → Machine → Prop) (x : Exec α)
    (m : Machine) : Prop :=
  x.Meets (Machine.Grounded program) Machine.Blames ensures m

namespace Machine.Grounded

variable {program : Program} {m : Machine}

theorem perform (h : m.Grounded program) (effect : Effect) (admitted : m.Admits program effect) :
    (Exec.perform effect).Sound program (fun _ m' => m' = effect.apply m) m :=
  .perform h (h.apply admitted)

theorem record (h : m.Grounded program) (event : Event) :
    (record event).Sound program (fun _ m' => m' = (Effect.record event).apply m) m :=
  .record h (h.apply trivial) fun _ _ fault => nomatch fault

theorem asks {α : Type} (h : m.Grounded program) (f : Machine → α) :
    (Exec.asks f).Sound program (fun a m' => a = f m ∧ m = m') m :=
  .asks h f

end Machine.Grounded

/-- Carries a value past an execution. -/
theorem Exec.Meets.has {α : Type} {always : Machine → Prop} {blames : Fault → Machine → Prop}
    {ensures : α → Machine → Prop} {x : Exec α} {m : Machine}
    (h : x.Meets always blames ensures m) {value : Value} (has : m.heap.Has value) :
    x.Meets always blames (fun a m' => ensures a m' ∧ m'.heap.Has value) m :=
  h.frame (P := fun m => m.heap.Has value) (fun effect m => effect.has_apply m) has

/-! ## Expressions -/

section

variable {program : Program}

mutual

/-- **The value of an expression refers to something.** -/
theorem meets_evaluate : ∀ (e : Expression) {m : Machine}, m.Grounded program →
    (evaluate e).Sound program (fun value m' => m'.heap.Has value) m
  | .literal _ value, m, h => by
    rw [evaluate]
    exact .done h (m.heap.has_ofLiteral value)
  | .identifier name, m, h => by
    rw [evaluate]
    refine .asksOrRaises h (fun value read => h.has_of_lookup read) fun fault unread => ?_
    intro other isCall
    rcases Machine.lookup_eq_error unread with is | is <;> exact nomatch is.symm.trans isCall
  | .object _ properties, m, h => by
    rw [evaluate]
    refine .bind (h.asks _) ?_
    rintro _ _ _ ⟨rfl, rfl⟩
    refine .bind (h.perform .allocate trivial) ?_
    rintro _ _ h₁ rfl
    have has : (Effect.allocate.apply m).heap.Has (.object m.heap.objects.size) :=
      m.heap.lt_size_allocate
    refine .bind (h₁.record _) ?_
    rintro _ _ h₂ rfl
    refine .bind ((meets_fillObject _ properties h₂).has (Effect.has_apply _ _ has)) ?_
    rintro _ m₃ h₃ ⟨-, has⟩
    exact .done h₃ has
  | .member _ base property, m, h => by
    rw [evaluate]
    refine .bind (meets_evaluate base h) fun object m₁ h₁ _ => ?_
    refine .bind (h₁.record _) fun _ m₂ h₂ _ => ?_
    exact .look (.done h₂ (h₂.has_property object property.name))
  | .array _ _, m, h | .assignVariable _ _ _, m, h | .assignMember _ _ _ _ _, m, h
  | .call _ _ _, m, h | .function _ _, m, h | .unary _ _ _, m, h | .binary _ _ _ _, m, h => by
    simp only [evaluate]
    exact .done h trivial

theorem meets_fillObject (id : ObjectId) : ∀ (properties : List (Property Expression))
    {m : Machine}, m.Grounded program → (fillObject id properties).Sound program (fun _ _ => True) m
  | [], m, h => by
    rw [fillObject]
    exact .done h trivial
  | ⟨_, .name key, value⟩ :: rest, m, h => by
    rw [fillObject]
    refine .bind (meets_evaluate value h) fun value m₁ h₁ has => ?_
    refine .bind (h₁.perform (.setProperty id key value) has) fun _ m₂ h₂ _ => ?_
    refine .bind (h₂.asks _) fun shown m₃ h₃ _ => ?_
    exact .bind (h₃.record _) fun _ m₄ h₄ _ => meets_fillObject id rest h₄
  | ⟨_, .str _, _⟩ :: rest, m, h | ⟨_, .num _, _⟩ :: rest, m, h => by
    simp only [fillObject]
    exact meets_fillObject id rest h

end

/-! ## Hoisting -/

theorem meets_hoistFunction {name : String} {id : FunctionId}
    (inside : id < program.functions.size) {m : Machine} (h : m.Grounded program) :
    (hoistFunction name id).Sound program (fun _ _ => True) m := by
  rw [hoistFunction]
  refine .bind (h.record _) fun _ m₁ h₁ _ => ?_
  refine .bind (h₁.perform (.storeFunction name id) inside) ?_
  rintro _ _ h₂ rfl
  -- the function is in the table before its name is bound
  have has : ((Effect.storeFunction name id).apply m₁).heap.Has (.function name) := by
    show ((m₁.heap.functions.put name id).get? name).isSome
    rw [Table.get?_put, if_pos rfl]
    rfl
  refine .bind (h₂.asks _) ?_
  rintro _ _ _ ⟨rfl, rfl⟩
  refine .bind (h₂.record _) ?_
  rintro _ _ h₃ rfl
  refine (h₃.perform (.bind name (.holding (.function name))) ?_).mono fun _ _ _ => trivial
  rintro _ ⟨⟩
  exact Effect.has_apply _ _ has

/-- The binding of a declared variable refers to nothing. -/
theorem DeclarationKind.has_hoisted (kind : DeclarationKind) (heap : Heap) :
    ∀ value, kind.hoisted.value = some value → heap.Has value := by
  intro value held
  cases kind with
  | varKind =>
    cases held
    trivial
  | letKind => exact nomatch held
  | constKind => exact nomatch held

theorem meets_hoistVariables (kind : DeclarationKind) (declarators : List Declarator) {m : Machine}
    (h : m.Grounded program) :
    (hoistVariables kind declarators).Sound program (fun _ _ => True) m := by
  induction declarators generalizing m with
  | nil =>
    rw [hoistVariables]
    exact .done h trivial
  | cons declarator rest ih =>
    rw [hoistVariables]
    refine .bind (h.asks _) fun scope m₁ h₁ _ => ?_
    refine .bind (h₁.record _) fun _ m₂ h₂ _ => ?_
    refine .bind (h₂.perform (.bind _ kind.hoisted) (kind.has_hoisted m₂.heap)) fun _ m₃ h₃ _ => ?_
    exact ih h₃

/-- Hoisting keeps the invariant, if what a script declares are functions of the program. -/
theorem meets_hoist (mode : HoistMode) (statements : List Statement)
    (declared : mode = .script → ∀ s ∈ statements, s.DeclaresBelow program.functions.size)
    {m : Machine} (h : m.Grounded program) :
    (hoist mode statements).Sound program (fun _ _ => True) m := by
  induction statements generalizing m with
  | nil =>
    rw [hoist]
    exact .done h trivial
  | cons s rest ih =>
    have further {m : Machine} (h : m.Grounded program) :=
      ih (fun script s' hs' => declared script s' (List.mem_cons_of_mem _ hs')) h
    match s, declared with
    | .functionDeclaration span name id, declared =>
      rw [hoist]
      split
      · rename_i script
        have inside := declared script _ List.mem_cons_self span name id rfl
        exact .bind (meets_hoistFunction inside h) fun _ m₁ h₁ _ => further h₁
      · exact further h
    | .variables declaration, _ =>
      rw [hoist]
      exact .bind (meets_hoistVariables _ _ h) fun _ m₁ h₁ _ => further h₁
    | .expression _ _, _ | .block _ _, _ | .conditional _ _ _ _, _ | .whileLoop _ _ _, _
    | .forLoop _ _ _ _ _, _ | .returns _ _, _ | .empty _, _ =>
      simp only [hoist]
      exact further h

/-! ## Statements -/

theorem meets_declare (kind : DeclarationKind) (declarators : List Declarator) {m : Machine}
    (h : m.Grounded program) : (declare kind declarators).Sound program (fun _ _ => True) m := by
  induction declarators generalizing m with
  | nil =>
    rw [declare]
    exact .done h trivial
  | cons declarator rest ih =>
    obtain ⟨_, name, init⟩ := declarator
    cases init with
    | none =>
      rw [declare]
      exact ih h
    | some init =>
      rw [declare]
      refine .bind (meets_evaluate init h) fun value m₁ h₁ has => ?_
      refine .bind (h₁.asks _) ?_
      rintro _ _ _ ⟨rfl, rfl⟩
      refine .bind (h₁.record _) ?_
      rintro _ _ h₂ rfl
      refine .bind (h₂.perform (.bind name.name (.holding value)) ?_) fun _ m₃ h₃ _ => ih h₃
      rintro _ ⟨⟩
      exact Effect.has_apply _ _ has

theorem meets_assignVariable (name : String) (right : Expression) {m : Machine}
    (h : m.Grounded program) : (assignVariable name right).Sound program (fun _ _ => True) m := by
  rw [assignVariable]
  refine .bind (meets_evaluate right h) fun value m₁ h₁ has => ?_
  refine .bind (h₁.asks _) ?_
  rintro _ _ _ ⟨rfl, rfl⟩
  refine .bind (h₁.record _) ?_
  rintro _ _ h₂ rfl
  refine (h₂.perform (.bind name (.holding value)) ?_).mono fun _ _ _ => trivial
  rintro _ ⟨⟩
  exact Effect.has_apply _ _ has

theorem meets_assignProperty (object : Expression) (property : String) (right : Expression)
    {m : Machine} (h : m.Grounded program) :
    (assignProperty object property right).Sound program (fun _ _ => True) m := by
  rw [assignProperty]
  refine .bind (meets_evaluate right h) fun value m₁ h₁ has => ?_
  -- the value is in flight while the object is evaluated
  refine .bind ((meets_evaluate object h₁).has has) ?_
  rintro base m₂ h₂ ⟨-, has⟩
  split
  · rename_i id
    refine .bind (h₂.asks _) ?_
    rintro _ _ _ ⟨rfl, rfl⟩
    refine .bind (h₂.record _) ?_
    rintro _ _ h₃ rfl
    refine (h₃.perform (.setProperty id property value) ?_).mono fun _ _ _ => trivial
    exact Effect.has_apply _ _ has
  · exact .raise h₂ fun _ fault => nomatch fault

theorem meets_callMethod (object : Expression) (method : String) (arguments : List Expression)
    {m : Machine} (h : m.Grounded program) :
    (callMethod object method arguments).Sound program (fun _ _ => True) m := by
  rw [callMethod]
  refine .bind (h.record _) fun _ m₁ h₁ _ => ?_
  have argument : (firstArgument arguments).Sound program (fun _ _ => True) m₁ := by
    cases arguments with
    | nil => exact .done h₁ trivial
    | cons argument rest => exact (meets_evaluate argument h₁).mono fun _ _ _ => trivial
  refine .bind argument fun value m₂ h₂ _ => ?_
  refine .bind (h₂.asks _) fun shown m₃ h₃ _ => ?_
  exact (h₃.record _).mono fun _ _ _ => trivial

/-- A statement keeps the invariant if the calls that it makes do. -/
theorem meets_execute {call : String → Exec Unit}
    (each : ∀ (name : String) {m : Machine}, m.Grounded program →
      (call name).Sound program (fun _ _ => True) m)
    (s : Statement) {m : Machine} (h : m.Grounded program) :
    (execute call s).Sound program (fun _ _ => True) m := by
  unfold execute
  split
  · exact meets_declare _ _ h
  · unfold executeExpression
    split
    · exact meets_assignVariable _ _ h
    · exact meets_assignProperty _ _ _ h
    · exact meets_callMethod _ _ _ h
    · exact each _ h
    · exact .done h trivial
  · exact .done h trivial

theorem meets_executeAll {call : String → Exec Unit}
    (each : ∀ (name : String) {m : Machine}, m.Grounded program →
      (call name).Sound program (fun _ _ => True) m)
    (statements : List Statement) {m : Machine} (h : m.Grounded program) :
    (executeAll call statements).Sound program (fun _ _ => True) m := by
  induction statements generalizing m with
  | nil =>
    rw [executeAll]
    exact .done h trivial
  | cons s rest ih =>
    rw [executeAll]
    exact .bind (meets_execute each s h) fun _ m₁ h₁ _ => ih h₁

/-! ## Calls -/

/-- A body in a frame of its own: the frame itself holds no values. -/
theorem meets_inFrame (name : String) (id : FunctionId) {body : ScopeId → ScopeId → Exec Unit}
    (each : ∀ scope outer {m : Machine}, m.Grounded program →
      (body scope outer).Sound program (fun _ _ => True) m)
    {m : Machine} (h : m.Grounded program) :
    (inFrame name id body).Sound program (fun _ _ => True) m := by
  rw [inFrame]
  refine .bind (h.asks _) fun depth m₁ h₁ _ => ?_
  refine .bind (h₁.record _) fun _ m₂ h₂ _ => ?_
  refine .bind (h₂.asks _) fun scope m₃ h₃ _ => ?_
  refine .bind (h₃.asks _) fun outer m₄ h₄ _ => ?_
  refine .bind (h₄.perform (.enter name (some id)) trivial) fun _ m₅ h₅ _ => ?_
  refine .attempt (each scope outer h₅) ?_ ?_
  · intro _ m₆ h₆ _
    refine .bind (h₆.perform .leave trivial) fun _ m₇ h₇ _ => ?_
    refine .bind (h₇.asks _) fun depth m₈ h₈ _ => ?_
    exact (h₈.record _).mono fun _ _ _ => trivial
  · intro fault m₆ h₆
    refine .bind (.perform h₆ (h₆.apply trivial)) fun _ m₇ h₇ _ => ?_
    refine .bind (.perform h₇ (h₇.apply trivial)) fun _ m₈ h₈ _ => ?_
    exact .raise h₈ rfl

theorem meets_runBody {call : String → Exec Unit}
    (each : ∀ (name : String) {m : Machine}, m.Grounded program →
      (call name).Sound program (fun _ _ => True) m)
    (name : String) {id : FunctionId} (inside : id < program.functions.size)
    (scope outer : ScopeId) {m : Machine} (h : m.Grounded program) :
    (runBody program call name id scope outer).Sound program (fun _ _ => True) m := by
  rw [runBody]
  refine .bind (h.record _) fun _ m₁ h₁ _ => ?_
  have there : program.function? id = some program.functions[id] := Array.getElem?_eq_getElem inside
  rw [there]
  refine .bind (meets_hoist .functionBody _ (fun script => nomatch script) h₁) fun _ m₂ h₂ _ => ?_
  exact meets_executeAll each _ h₂

/-- The search for the function that a name calls. -/
theorem meets_callee (name : String) {m : Machine} (h : m.Grounded program) :
    (Exec.asksOrRaises fun m => m.callee name).Sound program
      (fun id _ => id < program.functions.size) m := by
  refine .asksOrRaises h (fun id called => h.function_lt_of_callee called) ?_
  rintro _ called other rfl
  obtain ⟨rfl, -⟩ := h.lookup_of_callee called
  exact called

/-- A call keeps the invariant, by induction on the allowance. -/
theorem meets_callFunction (limit allowance : Nat) (name : String) {m : Machine}
    (h : m.Grounded program) :
    (callFunction program limit allowance name).Sound program (fun _ _ => True) m := by
  induction allowance generalizing name m with
  | zero =>
    rw [callFunction]
    refine .bind (h.record _) fun _ m₁ h₁ _ => ?_
    refine .bind (meets_callee name h₁) fun id m₂ h₂ inside => ?_
    exact .raise h₂ fun _ fault => nomatch fault
  | succ allowance ih =>
    rw [callFunction]
    refine .bind (h.record _) fun _ m₁ h₁ _ => ?_
    refine .bind (meets_callee name h₁) fun id m₂ h₂ inside => ?_
    refine meets_inFrame name id (fun scope outer _ h₃ => ?_) h₂
    exact meets_runBody (fun name _ h => ih name h) name inside scope outer h₃

theorem meets_executeStatements (limit : Nat) (statements : List Statement) {m : Machine}
    (h : m.Grounded program) :
    (executeStatements program limit statements).Sound program (fun _ _ => True) m := by
  induction statements generalizing m with
  | nil =>
    rw [executeStatements]
    exact .done h trivial
  | cons s rest ih =>
    rw [executeStatements]
    have first : (executeStatement program limit s).Sound program (fun _ _ => True) m :=
      .look (meets_execute (fun name _ h => meets_callFunction limit _ name h) s h)
    exact .bind first fun _ m₁ h₁ _ => ih h₁

/-- **Every state of a run is grounded**, if what the script declares are functions of the
program. -/
theorem meets_runScript (config : Config)
    (declared : ∀ s ∈ program.body, s.DeclaresBelow program.functions.size) :
    (runScript config program).Sound program (fun _ _ => True) (.initial config) := by
  rw [runScript]
  refine .bind ((Machine.grounded_initial program config).record _) fun _ m₁ h₁ _ => ?_
  refine .bind (meets_hoist .script _ (fun _ => declared) h₁) fun _ m₂ h₂ _ => ?_
  exact meets_executeStatements _ _ h₂

end

/-! ## Parsed programs -/

/-- The nearest variable of a name is initialized and holds a value that is no function. -/
def Machine.HoldsNoFunction (m : Machine) (name : String) : Prop :=
  ∃ binding, m.topmostBinding? name = some binding ∧ binding.initialized = true ∧
    ∀ target, binding.value.getD .undefined ≠ .function target

theorem Machine.Grounded.holdsNoFunction {program : Program} {m : Machine}
    (h : m.Grounded program) (linked : m.Linked) {name : String}
    (called : m.callee name = .error (.notAFunction name)) : m.HoldsNoFunction name := by
  obtain ⟨-, value, read, differs⟩ := h.lookup_of_callee called
  obtain ⟨binding, found, initialized, rfl⟩ := (linked.lookup_eq_ok_iff name value).mp read
  exact ⟨binding, found, initialized, differs⟩

/-- **References of parsed programs lead somewhere.**  In every state of a run of a parsed program,
all values in bindings and properties refer to something, and the table of functions holds indices
of functions of the program.  So an expression whose value is an object has an object in the heap,
to read a property of or to write one to; a function that a variable holds is in the table; and a
name that calls a function calls one of the program.  A name is no function only where the nearest
variable of that name is initialized and holds another value, and a run stops with that fault only
in such a state. -/
theorem parsed_references_lead_somewhere (config : Config) (source : String) (program : Program)
    (parsed : parseScript source = .ok program) :
    (∀ m ∈ (runScript config program).states (.initial config),
      m.Grounded program ∧
      (∀ e id m', (evaluate e).run m = (.ok (.object id), m') → (m'.heap.object? id).isSome) ∧
      (∀ name target, m.lookup name = .ok (.function target) →
        (m.heap.function? target).isSome) ∧
      (∀ name id, m.callee name = .ok id → (program.function? id).isSome) ∧
      ∀ name, m.callee name = .error (.notAFunction name) → m.HoldsNoFunction name) ∧
    ∀ name, (runProgram config program).fault = some (.notAFunction name) →
      ∃ m ∈ (runScript config program).states (.initial config),
        m.callee name = .error (.notAFunction name) ∧ m.HoldsNoFunction name := by
  have sound := meets_runScript config (parseScript_declaresBelow parsed)
  refine ⟨fun m reached => ?_, fun name stopped => ?_⟩
  · have grounded := sound.always_of_mem m reached
    refine ⟨grounded, fun e id m' ended => ?_, fun name target read => ?_, fun name id called => ?_,
      fun name called => ?_⟩
    · have inside : id < m'.heap.objects.size := (meets_evaluate e grounded).ensures_of_ok ended
      rw [Heap.object?, Array.getElem?_eq_getElem inside]
      rfl
    · exact grounded.has_of_lookup read
    · rw [Program.function?, Array.getElem?_eq_getElem (grounded.function_lt_of_callee called)]
      rfl
    · exact grounded.holdsNoFunction (Machine.linked_of_mem_states reached) called
  · rcases ended : (runScript config program).run (.initial config) with ⟨fault | _, m'⟩
    · rw [runProgram, ended] at stopped
      cases stopped
      obtain ⟨m, reached, blamed⟩ := sound.blames_of_error ended
      have called := blamed name rfl
      have linked := Machine.linked_of_mem_states reached
      exact ⟨m, reached, called, (sound.always_of_mem m reached).holdsNoFunction linked called⟩
    · rw [runProgram, ended] at stopped
      exact nomatch stopped

/-- A script that puts a function into a property and then calls the object: it stops where the
variable of the object is found to hold no function. -/
theorem calledObject_holds_no_function :
    ∃ program, parseScript "function f(){}var o={g:f};o();" = .ok program ∧
      (runProgram {} program).fault = some (.notAFunction "o") ∧
      ∃ m ∈ (runScript {} program).states (.initial {}),
        m.Grounded program ∧ m.HoldsNoFunction "o" := by
  obtain ⟨program, parsed, stopped⟩ := exists_ok_of_toOption_map
    (x := parseScript "function f(){}var o={g:f};o();")
    (f := fun program => (runProgram {} program).fault) (b := some (.notAFunction "o"))
    (by decide +kernel)
  obtain ⟨every, some⟩ := parsed_references_lead_somewhere {} _ program parsed
  obtain ⟨m, reached, -, holds⟩ := some "o" stopped
  exact ⟨program, parsed, stopped, m, reached, (every m reached).1, holds⟩

end ScriptTrace
