import ScriptTrace.Proofs.Recording
import ScriptTrace.Proofs.ReferenceFaults
import ScriptTrace.Proofs.References

/-!
# The steps of an expression are known before it runs

Which steps the evaluation of an expression records, and how many objects it makes, does not depend
on the state.  Names may stand for anything, the heap may hold anything, and the limit may be
reached anywhere: the kinds of the steps are those that can be read off the expression
(`Expression.shape`), or the first few of them if a fault comes in between.

Two executions one after the other have the kinds of the first and then those of the second, and a
fault leaves a beginning of the whole in either case.  So `Exec.Spells` says of an execution, in
every state, what its steps are and what may stop it, and is closed under sequencing.  The one
action that has to be taken as a whole is the making of an object: the object is in the heap before
there is room for the step that tells of it.

* `Expression.shape`: the kinds of the steps of an expression.
* `Machine.Adds`: what has been recorded since, with the names of the objects that were made.
* `Exec.Spells`: the steps of an execution, from any state.
* `evaluate_steps`: the steps of an expression.
-/

namespace ScriptTrace

/-! ## Shapes -/

mutual

/-- The kinds of the steps that an expression records when it is evaluated to its end. -/
def Expression.shape : Expression → List StepKind
  | .object _ properties => .allocateHeapObject :: shapeOfProperties properties
  | .member _ base _ => base.shape ++ [.executeExpression]
  | _ => []

/-- The kinds of the steps that are recorded while an object gets its properties. -/
def shapeOfProperties : List (Property Expression) → List StepKind
  | [] => []
  | ⟨_, .name _, value⟩ :: rest => value.shape ++ .assignValue :: shapeOfProperties rest
  | _ :: rest => shapeOfProperties rest

end

/-- The objects that some steps say were made, as they name them. -/
def madeObjects (steps : List Step) : List (Option Json) :=
  (steps.filter fun s => s.kind = .allocateHeapObject).map fun s => s.field? "objectId"

/-- The names of some objects in a row. -/
def objectsFrom (first : ObjectId) (count : Nat) : List (Option Json) :=
  (List.range' first count).map fun id => some (.str (objectLabel id))

theorem madeObjects_append (steps further : List Step) :
    madeObjects (steps ++ further) = madeObjects steps ++ madeObjects further := by
  rw [madeObjects, List.filter_append, List.map_append, madeObjects, madeObjects]

theorem objectsFrom_append (first : ObjectId) (count further : Nat) :
    objectsFrom first count ++ objectsFrom (first + count) further =
      objectsFrom first (count + further) := by
  rw [objectsFrom, objectsFrom, objectsFrom, ← List.map_append, List.range'_append_1]

/-- What may stop an expression that reads some names: the limit on steps, or one of the names. -/
def Fault.StopsReading (names : List String) (fault : Fault) : Prop :=
  (∃ limit, fault = .stepLimit limit) ∨
    ∃ name ∈ names, fault = .notDefined name ∨ fault = .uninitialized name

theorem Fault.StopsReading.mono {names more : List String} {fault : Fault}
    (stops : fault.StopsReading names) (subset : names ⊆ more) : fault.StopsReading more :=
  stops.imp_right fun ⟨name, mem, unread⟩ => ⟨name, subset mem, unread⟩

/-! ## What has been recorded -/

namespace Machine

/-- Between two states steps of some kinds have been recorded, and those that tell of an object that
was made name the objects in a row. -/
def Adds (m : Machine) (kinds : List StepKind) (m' : Machine) : Prop :=
  ∃ new : List Step, m'.recorder.steps.toList = m.recorder.steps.toList ++ new ∧
    new.map Step.kind = kinds ∧
    madeObjects new =
      objectsFrom m.heap.objects.size (kinds.count .allocateHeapObject)

variable {m m' m₁ : Machine} {kinds further : List StepKind}

theorem adds_nil (same : m'.recorder = m.recorder) : m.Adds [] m' :=
  ⟨[], by rw [same, List.append_nil], rfl, rfl⟩

/-- The objects made later are named on from those made before. -/
theorem Adds.trans (first : m.Adds kinds m₁) (second : m₁.Adds further m')
    (size : m₁.heap.objects.size = m.heap.objects.size + kinds.count .allocateHeapObject) :
    m.Adds (kinds ++ further) m' := by
  obtain ⟨new, steps, kindsEq, made⟩ := first
  obtain ⟨new', steps', kindsEq', made'⟩ := second
  refine ⟨new ++ new', ?_, ?_, ?_⟩
  · rw [steps', steps, List.append_assoc]
  · rw [List.map_append, kindsEq, kindsEq']
  · rw [madeObjects_append, made, made', size, objectsFrom_append, List.count_append]

end Machine

namespace Exec

variable {α β : Type} {kinds further : List StepKind} {names more : List String}

/-- From any state, an execution that ends with a result has recorded steps of some kinds and made
as many objects as they tell of.  One that ends with a fault has recorded the first of these steps,
and was stopped by the limit on steps or by one of some names. -/
def Spells (kinds : List StepKind) (names : List String) (x : Exec α) : Prop :=
  ∀ m : Machine,
    match x.run m with
    | (.ok _, m') => m.Adds kinds m' ∧
        m'.heap.objects.size = m.heap.objects.size + kinds.count .allocateHeapObject
    | (.error fault, m') => (∃ cut, cut <+: kinds ∧ m.Adds cut m') ∧ fault.StopsReading names

namespace Spells

theorem pure (result : α) : (pure result : Exec α).Spells [] [] :=
  fun _ => ⟨Machine.adds_nil rfl, rfl⟩

theorem asks (f : Machine → α) : (Exec.asks f).Spells [] [] :=
  fun _ => ⟨Machine.adds_nil rfl, rfl⟩

theorem lookup (name : String) :
    (Exec.asksOrRaises fun m => m.lookup name).Spells [] [name] := by
  intro m
  rw [run_asksOrRaises]
  cases read : m.lookup name with
  | ok value => exact ⟨Machine.adds_nil rfl, rfl⟩
  | error fault =>
    refine ⟨⟨[], List.prefix_refl _, Machine.adds_nil rfl⟩, .inr ⟨name, ?_, ?_⟩⟩
    · exact List.mem_singleton_self name
    · exact Machine.lookup_eq_error read

theorem setProperty (id : ObjectId) (key : String) (value : Value) :
    (Exec.perform (.setProperty id key value)).Spells [] [] :=
  fun m => ⟨Machine.adds_nil rfl, m.heap.size_setProperty id key value⟩

theorem record {event : Event} {kind : StepKind} (is : event.kind = kind)
    (plain : kind ≠ .allocateHeapObject) : (ScriptTrace.record event).Spells [kind] [] := by
  subst is
  intro m
  cases room : m.recorder.reached? with
  | some limit =>
    rw [run_record_of_reached room]
    exact ⟨⟨[], List.nil_prefix, Machine.adds_nil rfl⟩, .inl ⟨limit, rfl⟩⟩
  | none =>
    rw [run_record_of_room room]
    have count : [event.kind].count .allocateHeapObject = 0 := by
      rw [List.count_singleton]
      exact if_neg (by simpa using plain)
    refine ⟨⟨[⟨_, event.kind, _, _⟩], m.recorder.toList_steps_append _ _ _, rfl, ?_⟩, ?_⟩
    · rw [count]
      simp [madeObjects, objectsFrom, plain]
    · rw [count]
      rfl

/-- The steps of two executions one after the other. -/
theorem bind {x : Exec α} {next : α → Exec β} (first : x.Spells kinds names)
    (each : ∀ a, (next a).Spells further more) :
    (x >>= next).Spells (kinds ++ further) (names ++ more) := by
  intro m
  have first := first m
  rcases ended : x.run m with ⟨fault | a, m₁⟩
  · rw [ended] at first
    obtain ⟨⟨cut, beginning, adds⟩, stops⟩ := first
    rw [run_bind_of_error ended]
    refine ⟨⟨cut, beginning.trans (List.prefix_append _ _), adds⟩, ?_⟩
    exact stops.mono (List.subset_append_left _ _)
  · rw [ended] at first
    obtain ⟨adds, size⟩ := first
    rw [run_bind_of_ok ended]
    have second := each a m₁
    rcases ended' : (next a).run m₁ with ⟨fault | b, m'⟩
    · rw [ended'] at second
      obtain ⟨⟨cut, beginning, adds'⟩, stops⟩ := second
      refine ⟨⟨kinds ++ cut, ?_, adds.trans adds' size⟩, ?_⟩
      · exact (List.prefix_append_right_inj _).mpr beginning
      · exact stops.mono (List.subset_append_right _ _)
    · rw [ended'] at second
      obtain ⟨adds', size'⟩ := second
      refine ⟨adds.trans adds' size, ?_⟩
      rw [size', size, List.count_append, Nat.add_assoc]

end Spells

end Exec

/-! ## The steps of expressions -/

/-- Makes the object of a literal. -/
def createObject : Exec ObjectId := do
  let id ← .asks fun m => m.heap.objects.size
  .perform .allocate
  record (.createObject id)
  return id

theorem evaluate_object_eq (span : Span) (properties : List (Property Expression)) :
    evaluate (.object span properties) = (do
      let id ← createObject
      fillObject id properties
      return .object id) := by
  simp only [evaluate, createObject, bind_assoc, pure_bind]

/-- The step names the object that has been made.  If there is no room for the step, the object has
been made all the same. -/
theorem spells_createObject : createObject.Spells [.allocateHeapObject] [] := by
  intro m
  rw [createObject, Exec.run_asks_bind, Exec.run_perform_bind]
  cases room : (Effect.allocate.apply m).recorder.reached? with
  | some limit =>
    rw [Exec.run_bind_of_error (run_record_of_reached room)]
    exact ⟨⟨[], List.nil_prefix, Machine.adds_nil rfl⟩, .inl ⟨limit, rfl⟩⟩
  | none =>
    rw [Exec.run_bind_of_ok (run_record_of_room room)]
    refine ⟨⟨[⟨_, .allocateHeapObject, _, _⟩], m.recorder.toList_steps_append _ _ _, rfl, rfl⟩, ?_⟩
    exact Array.size_push _

mutual

theorem spells_evaluate : ∀ e : Expression, (evaluate e).Spells e.shape e.reads
  | .identifier name => by
    simp only [evaluate, Expression.shape, Expression.reads]
    exact .lookup name.name
  | .object _ properties => by
    rw [evaluate_object_eq, Expression.shape, Expression.reads]
    have filled := spells_createObject.bind fun id =>
      (spells_fillObject id properties).bind fun _ => .pure (Value.object id)
    simpa only [List.append_nil, List.nil_append, List.singleton_append] using filled
  | .member _ base property => by
    rw [evaluate, Expression.shape, Expression.reads]
    have told : (record (.readProperty base.describe property.name)).Spells
        [.executeExpression] [] := .record rfl nofun
    have read := (spells_evaluate base).bind fun value => told.bind fun _ =>
      .asks fun m => m.heap.property value property.name
    simpa only [List.append_nil] using read
  | .literal _ _ | .array _ _ | .assignVariable _ _ _ | .assignMember _ _ _ _ _ | .call _ _ _
  | .function _ _ | .unary _ _ _ | .binary _ _ _ _ => by
    simp only [evaluate, Expression.shape, Expression.reads]
    exact .pure _

theorem spells_fillObject (id : ObjectId) : ∀ properties : List (Property Expression),
    (fillObject id properties).Spells (shapeOfProperties properties) (readsOfProperties properties)
  | [] => by
    rw [fillObject, shapeOfProperties, readsOfProperties]
    exact .pure _
  | ⟨_, .name key, e⟩ :: rest => by
    rw [fillObject, shapeOfProperties, readsOfProperties]
    have told : ∀ shown, (record (.initializeProperty id key shown)).Spells [.assignValue] [] :=
      fun _ => .record rfl nofun
    have filled := (spells_evaluate e).bind fun value =>
      (Exec.Spells.setProperty id key value).bind fun _ =>
        (Exec.Spells.asks fun m => m.shown value).bind fun shown =>
          (told shown).bind fun _ => spells_fillObject id rest
    simpa only [List.nil_append, List.singleton_append] using filled
  | ⟨_, .str _, _⟩ :: rest | ⟨_, .num _, _⟩ :: rest => by
    simp only [fillObject, shapeOfProperties, readsOfProperties]
    exact spells_fillObject id rest

end

/-- **The steps of an expression are known before it runs.**  Let any expression be evaluated in any
state.  Steps are recorded after those that there were; the ones that tell of an object that was
made name the objects in a row, from the first that the heap did not have.

If there is a result, the kinds of the new steps are the shape of the expression, and as many
objects have been made as the shape says.  If there is a fault, their kinds are a beginning of the
shape, and the fault is the limit on steps or a fault of reference about a name that the expression
reads. -/
theorem evaluate_steps (e : Expression) (m : Machine) :
    ∃ new : List Step,
      ((evaluate e).run m).2.recorder.steps.toList = m.recorder.steps.toList ++ new ∧
      madeObjects new = objectsFrom m.heap.objects.size
        ((new.map Step.kind).count .allocateHeapObject) ∧
      match (evaluate e).run m with
      | (.ok _, m') => new.map Step.kind = e.shape ∧
          m'.heap.objects.size = m.heap.objects.size + e.shape.count .allocateHeapObject
      | (.error fault, _) => new.map Step.kind <+: e.shape ∧
          ((∃ limit, fault = .stepLimit limit) ∨
            fault.kind = .referenceError ∧
              ∃ name ∈ e.reads, fault = .notDefined name ∨ fault = .uninitialized name) := by
  have spelled := spells_evaluate e m
  rcases ended : (evaluate e).run m with ⟨fault | value, m'⟩
  · rw [ended] at spelled
    obtain ⟨⟨_, beginning, new, steps, rfl, made⟩, stops⟩ := spelled
    refine ⟨new, steps, made, beginning, stops.imp_right ?_⟩
    rintro ⟨name, reads, unread⟩
    refine ⟨?_, name, reads, unread⟩
    rcases unread with rfl | rfl <;> rfl
  · rw [ended] at spelled
    obtain ⟨⟨new, steps, kinds, made⟩, size⟩ := spelled
    exact ⟨new, steps, kinds ▸ made, kinds, size⟩

/-- The literal `{ a: {}, "b": { c: x }, d: x.p }` tells of the object inside before it has its
first property, and skips the property whose key is no name. -/
example : Expression.shape (.object ⟨0, 0⟩ [⟨⟨0, 0⟩, .name "a", .object ⟨0, 0⟩ []⟩,
      ⟨⟨0, 0⟩, .str "b", .object ⟨0, 0⟩ [⟨⟨0, 0⟩, .name "c", .identifier ⟨"x", ⟨0, 0⟩⟩⟩]⟩,
      ⟨⟨0, 0⟩, .name "d", .member ⟨0, 0⟩ (.identifier ⟨"x", ⟨0, 0⟩⟩) ⟨"p", ⟨0, 0⟩⟩⟩]) =
    [.allocateHeapObject, .allocateHeapObject, .assignValue, .executeExpression, .assignValue] := by
  rfl

end ScriptTrace
