import ScriptTrace.Proofs.Recasting
import ScriptTrace.Proofs.Recording

/-!
# The values of literals do not steer a run

The interpreter has no conditionals that run, and no arithmetic.  What it decides, it decides by
names, by the functions that names stand for, and by whether a value is an object.  So two programs
that differ in the values of literals only have runs that take the same course.

## What the two runs have in common

The states of the two runs are not equal: variables and properties hold different values, and the
steps say so.  But they are equal once every value that a literal can spell has been put to `null`,
and once nothing but its kind is left of a step.  This is `Machine.mask`, and all that an execution
looks at before it goes on can be read off a masked state (`lookup_mask`, `callee_mask`).

`Exec.Alike` says of two executions that from states with the same mask they end with states of the
same mask, and both with a result or both with a fault.  It is closed under all ways to compose an
execution, and an expression or a statement is executed like the same one with its literals masked.
Where two faults differ, they are both about a write to a property of something that is no object,
because only such a fault tells of a value.

* `Machine.mask`: what literal values cannot change in a state.
* `Exec.Alike`: executions that take the same course.
* `runProgram_ignores_literals`: what two traces have in common.
-/

namespace ScriptTrace

/-! ## Masked values in tables -/

namespace Table

variable {α β : Type}

/-- The table with other values under the same names. -/
def map (f : α → β) (t : Table α) : Table β :=
  ⟨t.entries.map fun e => (e.1, f e.2)⟩

theorem get?_map (f : α → β) (t : Table α) (key : String) :
    (t.map f).get? key = (t.get? key).map f := by
  obtain ⟨es⟩ := t
  show getIn? key (es.map _) = (getIn? key es).map f
  induction es with
  | nil => rfl
  | cons e es ih =>
    obtain ⟨k, v⟩ := e
    by_cases h : k = key <;> simp [getIn?, h, ih]

theorem map_put (f : α → β) (t : Table α) (key : String) (value : α) :
    (t.put key value).map f = (t.map f).put key (f value) := by
  obtain ⟨es⟩ := t
  refine congrArg Table.mk ?_
  show (putIn key value es).map _ = putIn key (f value) (es.map _)
  induction es with
  | nil => rfl
  | cons e es ih =>
    obtain ⟨k, v⟩ := e
    by_cases h : k = key <;> simp [putIn, h, ih]

end Table

/-- A change at one place of an array, seen through a map. -/
theorem map_modify_of_comm {α β : Type} {xs : Array α} {i : Nat} {f : α → α} {g : β → β}
    {h : α → β} (comm : ∀ a, h (f a) = g (h a)) :
    (xs.modify i f).map h = (xs.map h).modify i g := by
  ext j hj hj'
  · simp
  · by_cases here : i = j <;> simp [Array.getElem_modify, here, comm]

/-! ## What literal values cannot change -/

/-- The value with `null` in the place of all that a literal can spell. -/
def Value.mask : Value → Value
  | .null | .bool _ | .str _ | .num _ => .null
  | .undefined => .undefined
  | .object id => .object id
  | .function name => .function name

@[simp] theorem Value.mask_ofLiteral (l : Literal) : (Value.ofLiteral l).mask = .null := by
  cases l <;> rfl

@[simp] theorem Value.objectId?_mask (v : Value) : v.mask.objectId? = v.objectId? := by
  cases v <;> rfl

/-- A variable with a masked value. -/
def Binding.mask (b : Binding) : Binding :=
  ⟨b.initialized, b.value.map Value.mask⟩

theorem Binding.read?_mask (b : Binding) : b.mask.read? = b.read?.map Value.mask := by
  obtain ⟨initialized, value⟩ := b
  cases initialized <;> cases value <;> rfl

/-- A scope with masked values. -/
def Scope.mask (s : Scope) : Scope :=
  { s with bindings := s.bindings.map Binding.mask }

namespace Scopes

/-- All scopes with masked values. -/
def mask (s : Scopes) : Scopes :=
  ⟨s.records.map Scope.mask⟩

@[simp] theorem size_mask (s : Scopes) : s.mask.size = s.size :=
  Array.size_map

theorem get?_mask (s : Scopes) (id : ScopeId) : s.mask.get? id = (s.get? id).map Scope.mask :=
  Array.getElem?_map

theorem mask_add (s : Scopes) (name : String) (outer : ScopeId) :
    (s.add name outer).mask = s.mask.add name outer :=
  congrArg Scopes.mk Array.map_push

theorem mask_put (s : Scopes) (id : ScopeId) (name : String) (binding : Binding) :
    (s.put id name binding).mask = s.mask.put id name binding.mask := by
  refine congrArg Scopes.mk ?_
  rw [put, map_modify_of_comm]
  · rfl
  · intro scope
    simp only [Scope.mask, Table.map_put]

/-- The walk outwards goes by the names alone. -/
theorem resolveWithin_mask (s : Scopes) (name : String) (steps : Nat) (id : ScopeId) :
    s.mask.resolveWithin name steps id =
      (s.resolveWithin name steps id).map fun found => (found.1, found.2.mask) := by
  induction steps generalizing id with
  | zero => rfl
  | succ steps ih =>
    rw [resolveWithin, resolveWithin, get?_mask]
    cases s.get? id with
    | none => rfl
    | some scope =>
      simp only [Option.map_some, Scope.mask, Table.get?_map]
      cases scope.bindings.get? name with
      | some binding => rfl
      | none =>
        cases outer : scope.outer with
        | none => simp
        | some next => simp [ih]

end Scopes

namespace Heap

/-- The heap with masked values in its objects. -/
def mask (h : Heap) : Heap :=
  { h with objects := h.objects.map (Table.map Value.mask) }

theorem mask_allocate (h : Heap) : h.allocate.mask = h.mask.allocate :=
  congrArg (Heap.mk h.functions) Array.map_push

theorem mask_setProperty (h : Heap) (id : ObjectId) (key : String) (value : Value) :
    (h.setProperty id key value).mask = h.mask.setProperty id key value.mask := by
  refine congrArg (Heap.mk h.functions) ?_
  rw [setProperty, map_modify_of_comm]
  · rfl
  · exact fun o => o.map_put _ _ _

/-- Which property is read goes by references and names alone. -/
theorem property_mask (h : Heap) (base : Value) (key : String) :
    h.mask.property base.mask key = (h.property base key).mask := by
  rw [property, property, Value.objectId?_mask]
  cases base.objectId? with
  | none => rfl
  | some id =>
    have found : h.mask.object? id = (h.object? id).map (Table.map Value.mask) :=
      Array.getElem?_map
    simp only [Option.bind_some, found]
    cases h.object? id with
    | none => rfl
    | some o =>
      simp only [Option.map_some, Option.bind_some, Table.get?_map]
      cases o.get? key <;> rfl

end Heap

/-- A step of which nothing but its kind is left. -/
def Step.mask (s : Step) : Step :=
  ⟨"", s.kind, "", none⟩

/-- The steps so far, with nothing but their kinds. -/
def Recorder.mask (r : Recorder) : Recorder :=
  { r with steps := r.steps.map Step.mask }

theorem Recorder.reached?_mask (r : Recorder) : r.mask.reached? = r.reached? := by
  rw [reached?, reached?, mask, Array.size_map]

namespace Machine

/-- What the values of literals cannot change in a state. -/
def mask (m : Machine) : Machine where
  recorder := m.recorder.mask
  heap := m.heap.mask
  scopes := m.scopes.mask
  stack := m.stack
  faultSite := m.faultSite

/-- A variable of a masked state is the masked variable, or the same fault. -/
theorem lookup_mask (m : Machine) (name : String) :
    m.mask.lookup name = (m.lookup name).map Value.mask := by
  have found : m.mask.scopes.resolve? m.mask.currentScope name =
      (m.scopes.resolve? m.currentScope name).map fun found => (found.1, found.2.mask) := by
    show m.scopes.mask.resolveWithin name m.scopes.mask.size m.currentScope = _
    rw [Scopes.size_mask, Scopes.resolveWithin_mask]
    rfl
  rw [lookup, lookup, found]
  cases m.scopes.resolve? m.currentScope name with
  | none => rfl
  | some found =>
    simp only [Option.map_some, Binding.read?_mask]
    cases found.2.read? <;> rfl

/-- A masked state calls the same functions. -/
theorem callee_mask (m : Machine) (name : String) : m.mask.callee name = m.callee name := by
  have stored : m.mask.heap.function? name = m.heap.function? name := rfl
  rw [callee, callee, stored]
  cases m.heap.function? name with
  | some id => rfl
  | none =>
    simp only [lookup_mask]
    cases m.lookup name with
    | error fault => rfl
    | ok value => cases value <;> rfl

/-- States with the same mask have the same mask in each part. -/
theorem mask_eq_iff {m m' : Machine} :
    m.mask = m'.mask ↔ m.recorder.mask = m'.recorder.mask ∧ m.heap.mask = m'.heap.mask ∧
      m.scopes.mask = m'.scopes.mask ∧ m.stack = m'.stack ∧ m.faultSite = m'.faultSite := by
  simp only [mask, mk.injEq]

section

variable {m m' : Machine} (same : m.mask = m'.mask)

include same

theorem siteOfFault_eq_of_mask : m.siteOfFault = m'.siteOfFault := by
  obtain ⟨-, -, -, stack, site⟩ := mask_eq_iff.mp same
  rw [siteOfFault, siteOfFault, site, stack]

theorem reached?_eq_of_mask : m.recorder.reached? = m'.recorder.reached? := by
  rw [← Recorder.reached?_mask, (mask_eq_iff.mp same).1, Recorder.reached?_mask]

theorem kinds_eq_of_mask :
    m.recorder.steps.toList.map Step.kind = m'.recorder.steps.toList.map Step.kind := by
  have kinds := congrArg (fun r => r.steps.toList.map Step.kind) (mask_eq_iff.mp same).1
  simp only [Recorder.mask, Array.toList_map, List.map_map] at kinds
  exact kinds

end

end Machine

/-- Effects that differ in the values of literals only. -/
inductive Effect.Alike : Effect → Effect → Prop
  | refl (effect : Effect) : Alike effect effect
  | record {event event' : Event} (kind : event.kind = event'.kind) :
      Alike (.record event) (.record event')
  | bind (name : String) {binding binding' : Binding} (masked : binding.mask = binding'.mask) :
      Alike (.bind name binding) (.bind name binding')
  | setProperty (id : ObjectId) (key : String) {value value' : Value}
      (masked : value.mask = value'.mask) :
      Alike (.setProperty id key value) (.setProperty id key value')

/-- **Effects that are alike keep states alike.** -/
theorem Effect.Alike.mask_apply {effect effect' : Effect} (alike : effect.Alike effect')
    {m m' : Machine} (same : m.mask = m'.mask) :
    (effect.apply m).mask = (effect'.apply m').mask := by
  obtain ⟨recorder, heap, scopes, stack, site⟩ := Machine.mask_eq_iff.mp same
  have scope : m.currentScope = m'.currentScope := by
    rw [Machine.currentScope, Machine.currentScope, stack]
  have recorded {event event' : Event} (kind : event.kind = event'.kind) :
      (m.recorder.appendEvent event).mask = (m'.recorder.appendEvent event').mask := by
    obtain ⟨limit, steps⟩ := (Recorder.mk.injEq ..).mp recorder
    simp [Recorder.mask, Recorder.appendEvent, Recorder.append, Step.mask, kind, limit, steps]
  have bound (name : String) {binding binding' : Binding} (masked : binding.mask = binding'.mask) :
      (m.scopes.put m.currentScope name binding).mask =
        (m'.scopes.put m'.currentScope name binding').mask := by
    rw [Scopes.mask_put, Scopes.mask_put, scopes, scope, masked]
  have written (id : ObjectId) (key : String) {value value' : Value}
      (masked : value.mask = value'.mask) :
      (m.heap.setProperty id key value).mask = (m'.heap.setProperty id key value').mask := by
    rw [Heap.mask_setProperty, Heap.mask_setProperty, heap, masked]
  refine Machine.mask_eq_iff.mpr ?_
  cases alike with
  | record kind => exact ⟨recorded kind, heap, scopes, stack, site⟩
  | bind name masked => exact ⟨recorder, heap, bound name masked, stack, site⟩
  | setProperty id key masked => exact ⟨recorder, written id key masked, scopes, stack, site⟩
  | refl =>
    cases effect with
    | record event => exact ⟨recorded rfl, heap, scopes, stack, site⟩
    | bind name binding => exact ⟨recorder, heap, bound name rfl, stack, site⟩
    | setProperty id key value => exact ⟨recorder, written id key rfl, scopes, stack, site⟩
    | storeFunction name id =>
      refine ⟨recorder, ?_, scopes, stack, site⟩
      obtain ⟨functions, objects⟩ := (Heap.mk.injEq ..).mp heap
      simp [Effect.apply, Heap.storeFunction, Heap.mask, functions, objects]
    | allocate =>
      refine ⟨recorder, ?_, scopes, stack, site⟩
      show m.heap.allocate.mask = m'.heap.allocate.mask
      rw [Heap.mask_allocate, Heap.mask_allocate, heap]
    | enter name function =>
      have size : m.scopes.size = m'.scopes.size := by
        rw [← Scopes.size_mask, scopes, Scopes.size_mask]
      refine ⟨recorder, heap, ?_, ?_, site⟩
      · show (m.scopes.add name m.currentScope).mask = (m'.scopes.add name m'.currentScope).mask
        rw [Scopes.mask_add, Scopes.mask_add, scopes, scope]
      · show m.stack.push _ = m'.stack.push _
        rw [stack, size]
    | leave => exact ⟨recorder, heap, scopes, congrArg Stack.pop stack, site⟩
    | noteFault =>
      exact ⟨recorder, heap, scopes, stack, congrArg some (Machine.siteOfFault_eq_of_mask same)⟩

/-! ## Executions that take the same course -/

/-- The fault with a masked value. -/
def Fault.mask : Fault → Fault
  | .cannotSet base property => .cannotSet base.mask property
  | fault => fault

/-- Outcomes that differ in the values of literals only, where results are compared by `R`. -/
inductive EndAlike {α β : Type} (R : α → β → Prop) :
    Except Fault α × Machine → Except Fault β × Machine → Prop
  /-- Both runs have a result. -/
  | result {a : α} {b : β} {m m' : Machine} (related : R a b) (same : m.mask = m'.mask) :
      EndAlike R (.ok a, m) (.ok b, m')
  /-- Both runs have a fault. -/
  | fault {fault fault' : Fault} {m m' : Machine} (masked : fault.mask = fault'.mask)
      (same : m.mask = m'.mask) : EndAlike R (.error fault, m) (.error fault', m')

namespace Exec

variable {α α' β β' : Type}

/-- The two executions take the same course: from states that are alike, to outcomes that are. -/
def Alike (R : α → β → Prop) (x : Exec α) (y : Exec β) : Prop :=
  ∀ m m', m.mask = m'.mask → EndAlike R (x.run m) (y.run m')

/-- Results that are equal once they are masked. -/
abbrev AlikeValues : Exec Value → Exec Value → Prop :=
  Alike fun v w => v.mask = w.mask

namespace Alike

variable {R : α → β → Prop} {S : α' → β' → Prop}

theorem done {a : α} {b : β} (related : R a b) : Alike R (.done a) (.done b) :=
  fun _ _ same => .result related same

theorem raise {fault fault' : Fault} (masked : fault.mask = fault'.mask) :
    Alike R (.raise fault) (.raise fault') :=
  fun _ _ same => .fault masked same

theorem asks {f : Machine → α} {g : Machine → β}
    (related : ∀ m m' : Machine, m.mask = m'.mask → R (f m) (g m')) :
    Alike R (.asks f) (.asks g) :=
  fun m m' same => .result (related m m' same) same

/-- A part of the state that is not compared. -/
theorem asks_any {f : Machine → α} {g : Machine → β} :
    Alike (fun _ _ => True) (.asks f) (.asks g) :=
  asks fun _ _ _ => trivial

/-- A part of the state that is the same in both runs. -/
theorem asks_eq {f : Machine → α} (equal : ∀ m m' : Machine, m.mask = m'.mask → f m = f m') :
    Alike Eq (.asks f) (.asks f) :=
  asks equal

theorem perform {effect effect' : Effect} (alike : effect.Alike effect') :
    Alike Eq (.perform effect) (.perform effect') :=
  fun _ _ same => .result rfl (alike.mask_apply same)

theorem record {event event' : Event} (kind : event.kind = event'.kind) :
    Alike Eq (record event) (ScriptTrace.record event') := by
  intro m m' same
  cases room : m.recorder.reached? with
  | none =>
    rw [run_record_of_room room, run_record_of_room (Machine.reached?_eq_of_mask same ▸ room)]
    exact .result rfl (Effect.Alike.mask_apply (.record kind) same)
  | some limit =>
    rw [run_record_of_reached room, run_record_of_reached (Machine.reached?_eq_of_mask same ▸ room)]
    exact .fault rfl same

theorem attempt {x : Exec α} {y : Exec β} {next : Except Fault α → Exec α'}
    {next' : Except Fault β → Exec β'} (first : Alike R x y)
    (result : ∀ a b, R a b → Alike S (next (.ok a)) (next' (.ok b)))
    (fault : ∀ f g : Fault, f.mask = g.mask → Alike S (next (.error f)) (next' (.error g))) :
    Alike S (x.attempt next) (y.attempt next') := by
  intro m m' same
  rw [run_attempt, run_attempt]
  have ended := first m m' same
  generalize x.run m = outcome at ended ⊢
  generalize y.run m' = outcome' at ended ⊢
  cases ended with
  | result related same => exact result _ _ related _ _ same
  | fault masked same => exact fault _ _ masked _ _ same

theorem bind {x : Exec α} {y : Exec β} {next : α → Exec α'} {next' : β → Exec β'}
    (first : Alike R x y) (each : ∀ a b, R a b → Alike S (next a) (next' b)) :
    Alike S (x >>= next) (y >>= next') := by
  show Alike S (x.bind next) (y.bind next')
  rw [bind_eq_attempt, bind_eq_attempt]
  exact first.attempt each fun f g masked => raise masked

/-- One execution after another, where the first one has nothing to hand on. -/
theorem andThen {x y : Exec Unit} {next : Unit → Exec α'} {next' : Unit → Exec β'}
    (first : Alike Eq x y) (second : Alike S (next ()) (next' ())) :
    Alike S (x >>= next) (y >>= next') :=
  first.bind fun _ _ _ => second

/-- One execution after the steps of two events of the same kind. -/
theorem recordThen {event event' : Event} {next : Unit → Exec α'} {next' : Unit → Exec β'}
    (kind : event.kind = event'.kind) (second : Alike S (next ()) (next' ())) :
    Alike S (ScriptTrace.record event >>= next) (ScriptTrace.record event' >>= next') :=
  (record kind).andThen second

/-- A variable of both runs. -/
theorem lookup (name : String) :
    AlikeValues (.asksOrRaises fun m => m.lookup name) (.asksOrRaises fun m => m.lookup name) := by
  intro m m' same
  have masked : (m.lookup name).map Value.mask = (m'.lookup name).map Value.mask := by
    rw [← Machine.lookup_mask, same, Machine.lookup_mask]
  rw [run_asksOrRaises, run_asksOrRaises]
  rcases h : m.lookup name with fault | v <;> rcases h' : m'.lookup name with fault' | w <;>
    rw [h, h'] at masked
  · exact .fault (congrArg Fault.mask (Except.error.inj masked)) same
  · exact nomatch masked
  · exact nomatch masked
  · exact .result (Except.ok.inj masked) same

/-- The function that a name calls is the same in both runs. -/
theorem callee (name : String) :
    Alike Eq (.asksOrRaises fun m => m.callee name) (.asksOrRaises fun m => m.callee name) := by
  intro m m' same
  have equal : m.callee name = m'.callee name := by
    rw [← Machine.callee_mask, same, Machine.callee_mask]
  rw [run_asksOrRaises, run_asksOrRaises, equal]
  cases m'.callee name with
  | error fault => exact .fault rfl same
  | ok id => exact .result rfl same

/-- Bodies in a frame of their own. -/
theorem inFrame (name : String) (id : FunctionId) {body body' : ScopeId → ScopeId → Exec Unit}
    (each : ∀ scope outer, Alike Eq (body scope outer) (body' scope outer)) :
    Alike Eq (inFrame name id body) (ScriptTrace.inFrame name id body') := by
  rw [ScriptTrace.inFrame, ScriptTrace.inFrame]
  refine asks_any.bind fun depth depth' _ => ?_
  refine recordThen rfl ?_
  refine (asks_eq fun m m' same => ?_).bind ?_
  · obtain ⟨-, -, scopes, -⟩ := Machine.mask_eq_iff.mp same
    rw [← Scopes.size_mask, scopes, Scopes.size_mask]
  rintro scope _ rfl
  refine (asks_eq fun m m' same => ?_).bind ?_
  · obtain ⟨-, -, -, stack, -⟩ := Machine.mask_eq_iff.mp same
    rw [Machine.currentScope, Machine.currentScope, stack]
  rintro outer _ rfl
  refine (perform (.refl _)).andThen ?_
  refine (each scope outer).attempt (fun _ _ _ => ?_) fun fault fault' masked => ?_
  · refine (perform (.refl _)).andThen ?_
    exact asks_any.bind fun depth depth' _ => record rfl
  · refine (perform (.refl _)).andThen ?_
    exact (perform (.refl _)).andThen (raise masked)

end Alike

end Exec

open Exec (Alike AlikeValues)

/-! ## Expressions and statements with masked literals -/

mutual

/-- An expression is evaluated like the same one with masked literals. -/
theorem alike_evaluate : ∀ e : Expression,
    AlikeValues (evaluate e) (evaluate (e.recast .masking))
  | .literal _ value => by
    rw [Expression.recast, evaluate, evaluate]
    exact .done (by simp)
  | .identifier name => by
    rw [Expression.recast, evaluate, evaluate]
    exact .lookup name.name
  | .object _ properties => by
    rw [Expression.recast, evaluate, evaluate]
    refine (Alike.asks_eq fun m m' same => ?_).bind ?_
    · obtain ⟨-, heap, -⟩ := Machine.mask_eq_iff.mp same
      simpa [Heap.mask] using congrArg (fun h => h.objects.size) heap
    rintro id _ rfl
    refine (Alike.perform (.refl _)).andThen ?_
    refine Alike.recordThen rfl ?_
    exact (alike_fillObject id properties).andThen (.done rfl)
  | .member _ base property => by
    rw [Expression.recast, evaluate, evaluate]
    refine (alike_evaluate base).bind fun v w masked => ?_
    refine Alike.recordThen rfl ?_
    refine Alike.asks fun m m' same => ?_
    obtain ⟨-, heap, -⟩ := Machine.mask_eq_iff.mp same
    rw [← Heap.property_mask, heap, masked, Heap.property_mask]
    rfl
  | .array _ _ | .assignVariable _ _ _ | .assignMember _ _ _ _ _ | .call _ _ _
  | .function _ _ | .unary _ _ _ | .binary _ _ _ _ => by
    simp only [Expression.recast, evaluate]
    exact .done rfl

/-- A key that is a literal is passed over in both runs, whatever literal it is. -/
theorem alike_fillObject (id : ObjectId) : ∀ properties : List (Property Expression),
    Alike Eq (fillObject id properties) (fillObject id (recastProperties .masking properties))
  | [] => by
    rw [recastProperties]
    exact .done rfl
  | ⟨_, .name key, value⟩ :: rest => by
    rw [recastProperties, Recast.key, fillObject, fillObject]
    refine (alike_evaluate value).bind fun v w masked => ?_
    refine (Alike.perform (.setProperty id key masked)).andThen ?_
    refine Alike.asks_any.bind fun _ _ _ => ?_
    exact Alike.recordThen rfl (alike_fillObject id rest)
  | ⟨_, .str _, _⟩ :: rest | ⟨_, .num _, _⟩ :: rest => by
    simp only [recastProperties, Recast.key, Recast.masking, fillObject]
    exact alike_fillObject id rest

end

theorem alike_hoistVariables (kind : DeclarationKind) (declarators : List Declarator) :
    Alike Eq (hoistVariables kind declarators)
      (hoistVariables kind (declarators.map (Declarator.recast .masking))) := by
  induction declarators with
  | nil => exact .done rfl
  | cons declarator rest ih =>
    rw [List.map_cons, hoistVariables, hoistVariables]
    refine Alike.asks_any.bind fun _ _ _ => ?_
    refine Alike.recordThen rfl ?_
    exact (Alike.perform (.refl _)).andThen ih

theorem alike_hoistFunction (name : String) (id : FunctionId) :
    Alike Eq (hoistFunction name id) (hoistFunction name id) := by
  rw [hoistFunction]
  refine Alike.recordThen rfl ?_
  refine (Alike.perform (.refl _)).andThen ?_
  refine Alike.asks_any.bind fun _ _ _ => ?_
  refine Alike.recordThen rfl ?_
  exact Alike.perform (.refl _)

/-- The declarations do not depend on literals. -/
theorem alike_hoist (mode : HoistMode) (statements : List Statement) :
    Alike Eq (hoist mode statements) (hoist mode (recastStatements .masking statements)) := by
  induction statements with
  | nil => exact .done rfl
  | cons s rest ih =>
    rw [recastStatements]
    cases s with
    | functionDeclaration span name id =>
      rw [Statement.recast, hoist, hoist]
      by_cases script : mode = .script
      · rw [if_pos script, if_pos script]
        exact Alike.andThen (alike_hoistFunction name.name id) ih
      · rw [if_neg script, if_neg script]
        exact ih
    | «variables» declaration =>
      rw [Statement.recast, hoist, hoist]
      exact (alike_hoistVariables _ _).andThen ih
    | conditional span test consequent alternate =>
      cases alternate <;> simpa only [Statement.recast, hoist] using ih
    | _ => simpa only [Statement.recast, hoist] using ih

theorem alike_declare (kind : DeclarationKind) (declarators : List Declarator) :
    Alike Eq (declare kind declarators)
      (declare kind (declarators.map (Declarator.recast .masking))) := by
  induction declarators with
  | nil => exact .done rfl
  | cons declarator rest ih =>
    obtain ⟨span, name, init⟩ := declarator
    cases init with
    | none => exact ih
    | some init =>
      show Alike Eq (declare kind (⟨span, name, some init⟩ :: rest))
        (declare kind (⟨_, _, some (init.recast .masking)⟩ :: _))
      rw [declare, declare]
      refine (alike_evaluate init).bind fun v w masked => ?_
      refine Alike.asks_any.bind fun _ _ _ => ?_
      refine Alike.recordThen rfl ?_
      refine (Alike.perform (.bind _ ?_)).andThen ih
      simp only [Binding.holding, Binding.mask, Option.map_some, masked]

theorem alike_assignVariable (name : String) (right : Expression) :
    Alike Eq (assignVariable name right) (assignVariable name (right.recast .masking)) := by
  rw [assignVariable, assignVariable]
  refine (alike_evaluate right).bind fun v w masked => ?_
  refine Alike.asks_any.bind fun _ _ _ => ?_
  refine Alike.recordThen rfl ?_
  refine Alike.perform (.bind _ ?_)
  simp only [Binding.holding, Binding.mask, Option.map_some, masked]

/-- Whether a property can be written depends on whether the base is an object, and no literal is
one. -/
theorem alike_assignProperty (object : Expression) (property : String) (right : Expression) :
    Alike Eq (assignProperty object property right)
      (assignProperty (object.recast .masking) property (right.recast .masking)) := by
  rw [assignProperty, assignProperty]
  refine (alike_evaluate right).bind fun v w masked => ?_
  refine (alike_evaluate object).bind fun base base' maskedBase => ?_
  have references : base.objectId? = base'.objectId? := by
    rw [← Value.objectId?_mask, maskedBase, Value.objectId?_mask]
  have refused : (Fault.cannotSet base property).mask = (Fault.cannotSet base' property).mask := by
    rw [Fault.mask, Fault.mask, maskedBase]
  cases base <;> cases base' <;> simp only [Value.objectId?, reduceCtorEq] at references
  case object.object id id' =>
    obtain rfl := Option.some.inj references
    refine Alike.asks_any.bind fun _ _ _ => ?_
    refine Alike.recordThen rfl ?_
    exact Alike.perform (.setProperty id property masked)
  all_goals exact .raise refused

theorem alike_callMethod (object : Expression) (method : String) (arguments : List Expression) :
    Alike Eq (callMethod object method arguments)
      (callMethod (object.recast .masking) method (recastExpressions .masking arguments)) := by
  rw [callMethod, callMethod]
  have first : AlikeValues (firstArgument arguments)
      (firstArgument (recastExpressions .masking arguments)) := by
    cases arguments with
    | nil => exact .done rfl
    | cons argument rest => exact alike_evaluate argument
  refine Alike.recordThen rfl ?_
  refine first.bind fun v w masked => ?_
  exact Alike.asks_any.bind fun _ _ _ => .record rfl

section

variable {call call' : String → Exec Unit} (calls : ∀ name, Alike Eq (call name) (call' name))

include calls

theorem alike_executeExpression (e : Expression) :
    Alike Eq (executeExpression call e) (executeExpression call' (e.recast .masking)) := by
  cases e with
  | assignVariable span target value => exact alike_assignVariable target.name value
  | assignMember span targetSpan base property value =>
    exact alike_assignProperty base property.name value
  | call span callee arguments =>
    cases callee with
    | identifier name => exact calls name.name
    | member span base method => exact alike_callMethod base method.name arguments
    | _ => exact .done rfl
  | _ => exact .done rfl

theorem alike_execute (s : Statement) :
    Alike Eq (execute call s) (execute call' (s.recast .masking)) := by
  cases s with
  | «variables» declaration => exact alike_declare _ _
  | expression span e => exact alike_executeExpression calls e
  | conditional span test consequent alternate => cases alternate <;> exact .done rfl
  | _ => exact .done rfl

theorem alike_executeAll (statements : List Statement) :
    Alike Eq (executeAll call statements)
      (executeAll call' (recastStatements .masking statements)) := by
  induction statements with
  | nil => exact .done rfl
  | cons s rest ih =>
    rw [recastStatements, executeAll, executeAll]
    exact (alike_execute calls s).andThen ih

theorem alike_runBody (p : Program) (name : String) (id : FunctionId) (scope outer : ScopeId) :
    Alike Eq (runBody p call name id scope outer)
      (runBody (p.recast .masking) call' name id scope outer) := by
  rw [runBody, runBody, Program.function?_recast]
  refine Alike.recordThen rfl ?_
  cases p.function? id with
  | none => exact .raise rfl
  | some definition =>
    exact (alike_hoist .functionBody definition.body).andThen
      (alike_executeAll calls definition.body)

end

/-- **A call takes the same course with masked literals.**  The induction is on the number of frames
that there is still room for. -/
theorem alike_callFunction (p : Program) (limit allowance : Nat) (name : String) :
    Alike Eq (callFunction p limit allowance name)
      (callFunction (p.recast .masking) limit allowance name) := by
  induction allowance generalizing name with
  | zero =>
    rw [callFunction, callFunction]
    refine Alike.recordThen rfl ?_
    exact (Alike.callee name).bind fun _ _ _ => .raise rfl
  | succ allowance ih =>
    rw [callFunction, callFunction]
    refine Alike.recordThen rfl ?_
    refine (Alike.callee name).bind ?_
    rintro id _ rfl
    exact .inFrame name id (alike_runBody ih p name id)

theorem alike_executeStatements (p : Program) (limit : Nat) (statements : List Statement) :
    Alike Eq (executeStatements p limit statements)
      (executeStatements (p.recast .masking) limit (recastStatements .masking statements)) := by
  induction statements with
  | nil => exact .done rfl
  | cons s rest ih =>
    rw [recastStatements, executeStatements, executeStatements]
    refine Alike.andThen (fun m m' same => ?_) ih
    obtain ⟨-, -, -, stack, -⟩ := Machine.mask_eq_iff.mp same
    show EndAlike Eq ((execute (callFunction _ limit (limit - m.stack.depth)) s).run m)
      ((execute (callFunction _ limit (limit - m'.stack.depth)) _).run m')
    rw [stack]
    exact alike_execute (alike_callFunction p limit _) s m m' same

theorem alike_runScript (config : Config) (p : Program) :
    Alike Eq (runScript config p) (runScript config (p.recast .masking)) := by
  rw [runScript, runScript]
  refine Alike.recordThen rfl ?_
  refine (alike_hoist .script p.body).andThen ?_
  exact alike_executeStatements p config.callDepthLimit p.body

/-! ## Traces -/

namespace Fault

variable {f g : Fault} (masked : f.mask = g.mask)

include masked

/-- Faults that are alike are the same, unless both are about a write to a property of something
that is no object. -/
theorem eq_or_cannotSet_of_mask :
    f = g ∨ ∃ base base' property, f = .cannotSet base property ∧ g = .cannotSet base' property := by
  cases f <;> cases g <;> simp only [mask, reduceCtorEq, cannotSet.injEq] at masked
  case cannotSet.cannotSet base property base' property' =>
    exact .inr ⟨base, base', property, rfl, masked.2 ▸ rfl⟩
  all_goals exact .inl masked

theorem haltingKind_eq_of_mask : f.haltingKind = g.haltingKind := by
  rcases eq_or_cannotSet_of_mask masked with rfl | ⟨base, base', property, rfl, rfl⟩ <;> rfl

end Fault

namespace Trace

/-- The kinds of the steps of a trace. -/
def kinds (t : Trace) : List StepKind :=
  t.steps.toList.map Step.kind

/-- The call stack that the report of a fault tells, if a step reports one. -/
def reportedCallStack? (t : Trace) : Option Json :=
  (t.steps.toList.find? fun s => s.kind.isHalting).bind fun s => s.field? "callStack"

end Trace

section

variable {config : Config} {program : Program} {m : Machine}

theorem reportedCallStack?_of_result
    (ended : (runScript config program).run (.initial config) = (.ok (), m)) :
    (runProgram config program).reportedCallStack? = none := by
  have ongoing := ongoing_runScript config program
  rw [ended] at ongoing
  rw [runProgram_of_result ended, Trace.reportedCallStack?, List.find?_eq_none.mpr]
  · rfl
  · intro s hs
    rw [ongoing s (Array.mem_toList_iff.mp hs)]
    exact Bool.false_ne_true

theorem reportedCallStack?_of_fault {fault : Fault}
    (ended : (runScript config program).run (.initial config) = (.error fault, m)) :
    (runProgram config program).reportedCallStack? = some (.strings m.siteOfFault) := by
  have ongoing := ongoing_runScript config program
  rw [ended] at ongoing
  obtain ⟨last, steps, -, reports⟩ := m.recorder.exists_report fault m.siteOfFault
  have before : m.recorder.steps.toList.find? (fun s => s.kind.isHalting) = none := by
    refine List.find?_eq_none.mpr fun s hs => ?_
    rw [ongoing s (Array.mem_toList_iff.mp hs)]
    exact Bool.false_ne_true
  rw [runProgram_of_fault ended, Trace.reportedCallStack?, steps, List.find?_append, before]
  simp [reports.kind_eq, fault.isHalting_haltingKind, reports.callStack]

end

/-- The trace of a program and that of the program with masked literals have in common the kinds of
their steps, the fault up to a masked value, and the call stack of the report. -/
theorem runProgram_masking (config : Config) (p : Program) :
    let t := runProgram config p
    let u := runProgram config (p.recast .masking)
    t.kinds = u.kinds ∧ t.fault.map Fault.mask = u.fault.map Fault.mask ∧
      t.reportedCallStack? = u.reportedCallStack? := by
  intro t u
  have alike := alike_runScript config p (.initial config) (.initial config) rfl
  rcases ended : (runScript config p).run (.initial config) with ⟨outcome, m⟩
  rcases ended' : (runScript config (p.recast .masking)).run (.initial config) with ⟨outcome', m'⟩
  rw [ended, ended'] at alike
  cases alike with
  | result related same =>
    have finished : t = _ := runProgram_of_result ended
    have finished' : u = _ := runProgram_of_result ended'
    have silent : t.reportedCallStack? = none := reportedCallStack?_of_result ended
    have silent' : u.reportedCallStack? = none := reportedCallStack?_of_result ended'
    refine ⟨?_, ?_, silent.trans silent'.symm⟩
    · rw [finished, finished']
      exact Machine.kinds_eq_of_mask same
    · rw [finished, finished']
  | @fault f g _ _ masked same =>
    have stopped : t = _ := runProgram_of_fault ended
    have stopped' : u = _ := runProgram_of_fault ended'
    have report : t.reportedCallStack? = _ := reportedCallStack?_of_fault ended
    have report' : u.reportedCallStack? = _ := reportedCallStack?_of_fault ended'
    refine ⟨?_, ?_, ?_⟩
    · rw [stopped, stopped', Trace.kinds, Trace.kinds, Recorder.halt, Recorder.halt,
        Recorder.toList_steps_append, Recorder.toList_steps_append, List.map_append, List.map_append,
        Machine.kinds_eq_of_mask same]
      simp [Fault.haltingKind_eq_of_mask masked]
    · rw [stopped, stopped']
      exact congrArg some masked
    · rw [report, report', Machine.siteOfFault_eq_of_mask same]

/-- **The values of literals never steer a run.**  Two programs that are equal up to the values of
literals, keys that are strings or numerals among them, have traces with the same sequence of kinds
of steps under every configuration.  Either both runs stop with a fault or neither does.  The two
faults have the same name as data, and they are the same unless both are about a write to a property
of something that is no object; and their reports tell the same call stack. -/
theorem runProgram_ignores_literals (config : Config) {p q : Program}
    (same : p.recast .masking = q.recast .masking) :
    let t := runProgram config p
    let u := runProgram config q
    t.kinds = u.kinds ∧ t.isHalted = u.isHalted ∧
      (∀ f g, t.fault = some f → u.fault = some g →
        f.toJson.field? "kind" = g.toJson.field? "kind" ∧
          (f = g ∨ ∃ base base' property,
            f = .cannotSet base property ∧ g = .cannotSet base' property)) ∧
      t.reportedCallStack? = u.reportedCallStack? := by
  intro t u
  obtain ⟨kinds, faults, sites⟩ := runProgram_masking config p
  obtain ⟨kinds', faults', sites'⟩ := runProgram_masking config q
  rw [same] at kinds faults sites
  have masked : t.fault.map Fault.mask = u.fault.map Fault.mask := faults.trans faults'.symm
  refine ⟨kinds.trans kinds'.symm, ?_, fun f g stopped stopped' => ?_, sites.trans sites'.symm⟩
  · have halted := congrArg Option.isSome masked
    rwa [Option.isSome_map, Option.isSome_map] at halted
  · rw [stopped, stopped'] at masked
    have alike := Fault.eq_or_cannotSet_of_mask (Option.some.inj masked)
    refine ⟨?_, alike⟩
    rcases alike with rfl | ⟨base, base', property, rfl, rfl⟩ <;> rfl

/-- A script whose function writes to a property of a variable that holds a literal:
`var x = { …: null }; x = …; function f() { x.p = x; } f();`, with the key and the literal left
open. -/
def literalWrite (key : PropertyKey) (literal : Literal) : Program where
  body := [.variables ⟨⟨0, 0⟩, .varKind, [⟨⟨0, 0⟩, ⟨"x", ⟨0, 0⟩⟩,
      some (.object ⟨0, 0⟩ [⟨⟨0, 0⟩, key, .literal ⟨0, 0⟩ .null⟩])⟩]⟩,
    .expression ⟨0, 0⟩ (.assignVariable ⟨0, 0⟩ ⟨"x", ⟨0, 0⟩⟩ (.literal ⟨0, 0⟩ literal)),
    .functionDeclaration ⟨0, 0⟩ ⟨"f", ⟨0, 0⟩⟩ 0,
    .expression ⟨0, 0⟩ (.call ⟨0, 0⟩ (.identifier ⟨"f", ⟨0, 0⟩⟩) [])]
  functions := #[⟨⟨0, 0⟩, none, [],
    [.expression ⟨0, 0⟩ (.assignMember ⟨0, 0⟩ ⟨0, 0⟩ (.identifier ⟨"x", ⟨0, 0⟩⟩) ⟨"p", ⟨0, 0⟩⟩
      (.identifier ⟨"x", ⟨0, 0⟩⟩))]⟩]

/-- With `null` and with a text, the two runs stop at the same write with the same call stack, and
only the wording of the fault differs. -/
theorem literalWrite_ignores_literals :
    let t := runProgram {} (literalWrite (.str "k") .null)
    let u := runProgram {} (literalWrite (.str "other") (.str "text"))
    t.kinds = u.kinds ∧ t.fault = some (.cannotSet .null "p") ∧
      u.fault = some (.cannotSet (.str "text") "p") ∧ t.reportedCallStack? = u.reportedCallStack? := by
  have fault : (runProgram {} (literalWrite (.str "k") .null)).fault =
      some (.cannotSet .null "p") := by decide
  have fault' : (runProgram {} (literalWrite (.str "other") (.str "text"))).fault =
      some (.cannotSet (.str "text") "p") := by decide
  obtain ⟨kinds, -, -, stack⟩ := runProgram_ignores_literals {}
    (p := literalWrite (.str "k") .null) (q := literalWrite (.str "other") (.str "text")) rfl
  exact ⟨kinds, fault, fault', stack⟩

end ScriptTrace
