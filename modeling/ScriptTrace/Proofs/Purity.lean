import ScriptTrace.Proofs.Snapshots
import ScriptTrace.Proofs.ValueFlow

/-!
# Expressions are pure up to allocation

The evaluation of an expression reads the state and makes objects.  It writes too, since an object
literal gives its object the properties one by one, but it writes to objects of its own only.  This
file says so, and says what may be reached from the value that comes out.

## The invariant

Let `base` be the state in which an evaluation begins.  In every later state the objects of `base`
are as they were, and the new objects hold references to new objects and to objects that some
binding of `base` retains (`Machine.Builds`).  The same is true of the values that are in flight
(`Machine.Grants`).  The two go together: a property that is read off a granted object is granted,
since it belongs to a new object or to one that is retained with all that is reachable from it.

## Half-built objects

While a literal is evaluated its object is in the heap already, with some of its properties.  It is
neither retained by a binding nor reachable from its own properties (`Machine.Fresh`).  So, for the
evaluation of the next property, it is an old object that nothing retains, and the value that comes
out cannot reach it.  This is why it does not matter whether the value is shown before or after it
is written.

For this no reference may lead out of the heap, or else the object that is made next might be
retained before it is there.  That is an invariant of whole runs (`Machine.Closed`).

* `meets_evaluate_builds`: what an evaluation does to the state that it begins in.
* `closed_of_mem_states`: no reference of a run leads out of the heap.
* `evaluate_pure_up_to_allocation`: both, for every expression and every state of a run.
-/

namespace ScriptTrace

/-! ## Objects that are reachable -/

namespace Heap

variable {h h' : Heap} {value : Value} {id : ObjectId}

/-- A new object has no properties, as had the reference to it. -/
@[simp] theorem properties_allocate (h : Heap) (id : ObjectId) :
    h.allocate.properties id = h.properties id := by
  by_cases new : id = h.objects.size
  · rw [properties_of_size_le (Nat.le_of_eq new.symm), properties, object?_allocate, if_pos new]
    rfl
  · rw [properties, object?_allocate, if_neg new, properties]

theorem properties_setProperty_of_ne {target : ObjectId} (key : String) (value : Value)
    (differs : target ≠ id) : (h.setProperty target key value).properties id = h.properties id := by
  rw [properties, object?_setProperty, if_neg differs, properties]

/-- A property after a write is the one written or was there before. -/
theorem mem_properties_setProperty {target : ObjectId} {key : String} {entry : String × Value}
    (mem : entry ∈ (h.setProperty target key value).properties id) :
    target = id ∧ entry = (key, value) ∨ entry ∈ h.properties id := by
  by_cases same : target = id
  · rw [properties, object?_setProperty, if_pos same] at mem
    rw [properties]
    cases there : h.object? id with
    | none => simp [there] at mem
    | some object =>
      rw [there] at mem
      exact (Table.mem_entries_put mem).imp_left fun written => ⟨same, written⟩
  · rw [properties_setProperty_of_ne key value same] at mem
    exact Or.inr mem

/-- A property that is read is `undefined` or a property of the object. -/
theorem property_eq_or_mem (h : Heap) (base : Value) (key : String) :
    h.property base key = .undefined ∨
      ∃ id, base = .object id ∧ (key, h.property base key) ∈ h.properties id := by
  cases base with
  | object id =>
    cases found : h.held? id key with
    | none =>
      left
      show (h.held? id key).getD .undefined = _
      rw [found]
      rfl
    | some value =>
      right
      refine ⟨id, rfl, ?_⟩
      show (key, (h.held? id key).getD .undefined) ∈ _
      rw [found]
      exact mem_properties_of_held? found
  | _ => exact Or.inl rfl

/-- A property of a reachable object leads to a reachable object. -/
theorem Reaches.snoc {target : ObjectId} (reached : h.Reaches value id) {entry : String × Value}
    (mem : entry ∈ h.properties id) (held : entry.2 = .object target) :
    h.Reaches value target := by
  induction reached with
  | here id =>
    refine .along mem ?_
    rw [held]
    exact .here target
  | along first _ ih => exact .along first (ih mem)

/-- Heaps that agree on what is reachable from a value in the one have nothing more reachable from
it in the other. -/
theorem Reaches.of_properties_eq (reached : h'.Reaches value id)
    (same : ∀ other, h.Reaches value other → h'.properties other = h.properties other) :
    h.Reaches value id := by
  induction reached with
  | here id => exact .here id
  | @along id _ entry mem _ ih =>
    rw [same id (.here id)] at mem
    exact .along mem (ih fun other further => same other (.along mem further))

section

variable {target : ObjectId} (key : String) (written : Value) (unreached : ¬ h.Reaches value target)

include unreached

/-- A write to an object that is not reachable from a value cannot be noticed from there. -/
theorem properties_setProperty_of_reaches {other : ObjectId} (reached : h.Reaches value other) :
    (h.setProperty target key written).properties other = h.properties other := by
  apply properties_setProperty_of_ne
  rintro rfl
  exact unreached reached

theorem reaches_of_setProperty (reached : (h.setProperty target key written).Reaches value id) :
    h.Reaches value id :=
  reached.of_properties_eq fun _ => properties_setProperty_of_reaches key written unreached

theorem snapshot_setProperty :
    (h.setProperty target key written).snapshot value = h.snapshot value :=
  snapshot_eq_of_reaches fun _ => properties_setProperty_of_reaches key written unreached

end

/-- A value is no reference, or a reference to an object of the heap. -/
def Owns (h : Heap) (value : Value) : Prop :=
  ∀ id, value = .object id → id < h.objects.size

theorem owns_of_objectId? (h : Heap) (plain : value.objectId? = none) : h.Owns value := by
  rintro id rfl
  exact nomatch plain

theorem Owns.mono (owns : h.Owns value) (le : h.objects.size ≤ h'.objects.size) : h'.Owns value :=
  fun id is => Nat.lt_of_lt_of_le (owns id is) le

/-- No reference leads out of the heap from inside. -/
theorem Reaches.lt_size (reached : h.Reaches value id) (owns : h.Owns value)
    (closed : ∀ other, ∀ entry ∈ h.properties other, h.Owns entry.2) : id < h.objects.size := by
  induction reached with
  | here id => exact owns id rfl
  | along mem _ ih => exact ih (closed _ _ mem)

end Heap

namespace Machine

/-- A value is held by a binding of some scope. -/
def Holds (m : Machine) (value : Value) : Prop :=
  ∃ id name binding, m.scopes.binding? name id = some binding ∧ binding.value = some value

/-- An object is reachable from a binding. -/
def Retains (m : Machine) (id : ObjectId) : Prop :=
  ∃ value, m.Holds value ∧ m.heap.Reaches value id

/-- No reference in a binding or a property leads out of the heap. -/
structure Closed (m : Machine) : Prop where
  owns_binding : m.EachBinding fun binding =>
    ∀ value, binding.value = some value → m.heap.Owns value
  owns_property : ∀ id, ∀ entry ∈ m.heap.properties id, m.heap.Owns entry.2

theorem Closed.owns_held {m : Machine} (closed : m.Closed) {value : Value} (holds : m.Holds value) :
    m.heap.Owns value := by
  obtain ⟨id, name, binding, bound, held⟩ := holds
  exact closed.owns_binding id name binding bound value held

theorem Closed.lt_of_retains {m : Machine} (closed : m.Closed) {id : ObjectId}
    (retained : m.Retains id) : id < m.heap.objects.size := by
  obtain ⟨value, held, reached⟩ := retained
  exact reached.lt_size (closed.owns_held held) closed.owns_property

/-- A variable that can be read is undefined or has a value that a binding holds. -/
theorem holds_of_lookup {m : Machine} {name : String} {value : Value}
    (read : m.lookup name = .ok value) : value = .undefined ∨ m.Holds value := by
  obtain ⟨id, scope, binding, here, bound, rfl⟩ := exists_of_lookup read
  cases held : binding.value with
  | none => exact Or.inl rfl
  | some value =>
    refine Or.inr ⟨id, name, binding, ?_, held⟩
    rw [Scopes.binding?, here]
    exact bound

/-! ## What an evaluation leaves alone and what it makes -/

/-- A state is another one with further steps and further objects, and all else as it was. -/
structure Extends (base m : Machine) : Prop where
  scopes_eq : m.scopes = base.scopes
  functions_eq : m.heap.functions = base.heap.functions
  stack_eq : m.stack = base.stack
  faultSite_eq : m.faultSite = base.faultSite
  limit_eq : m.recorder.limit = base.recorder.limit
  steps_prefix : base.recorder.steps.toList <+: m.recorder.steps.toList
  size_le : base.heap.objects.size ≤ m.heap.objects.size
  object?_eq : ∀ id, id < base.heap.objects.size → m.heap.object? id = base.heap.object? id

/-- A value is no reference, or a reference to an object that is new or was retained before. -/
def Grants (base m : Machine) (value : Value) : Prop :=
  ∀ id, value = .object id →
    id < m.heap.objects.size ∧ (base.heap.objects.size ≤ id ∨ base.Retains id)

/-- A state extends another one, and what the new objects hold is granted. -/
structure Builds (base m : Machine) : Prop extends base.Extends m where
  grants_property : ∀ id, base.heap.objects.size ≤ id → ∀ entry ∈ m.heap.properties id,
    base.Grants m entry.2

variable {base m m' : Machine} {value : Value} {id : ObjectId}

theorem grants_of_objectId? (plain : value.objectId? = none) : base.Grants m value := by
  rintro id rfl
  exact nomatch plain

theorem Grants.mono (grants : base.Grants m value)
    (le : m.heap.objects.size ≤ m'.heap.objects.size) : base.Grants m' value := by
  intro id is
  obtain ⟨inside, known⟩ := grants id is
  exact ⟨Nat.lt_of_lt_of_le inside le, known⟩

theorem Extends.refl (base : Machine) : base.Extends base :=
  ⟨rfl, rfl, rfl, rfl, rfl, List.prefix_refl _, Nat.le_refl _, fun _ _ => rfl⟩

theorem Builds.refl (base : Machine) : base.Builds base where
  toExtends := .refl base
  grants_property id outside entry mem := by
    rw [Heap.properties_of_size_le outside] at mem
    exact nomatch mem

theorem Extends.properties_eq (grown : base.Extends m) (old : id < base.heap.objects.size) :
    m.heap.properties id = base.heap.properties id := by
  rw [Heap.properties, grown.object?_eq id old, Heap.properties]

theorem Extends.holds_iff (grown : base.Extends m) : m.Holds value ↔ base.Holds value := by
  rw [Holds, Holds, grown.scopes_eq]

namespace Builds

/-! ### The steps of an evaluation -/

theorem record (builds : base.Builds m) (event : Event) :
    base.Builds ((Effect.record event).apply m) where
  toExtends := { builds.toExtends with
    steps_prefix := by
      refine builds.steps_prefix.trans ?_
      show _ <+: (m.recorder.append _ _ _).steps.toList
      rw [Recorder.toList_steps_append]
      exact List.prefix_append _ _ }
  grants_property := builds.grants_property

theorem allocate (builds : base.Builds m) : base.Builds (Effect.allocate.apply m) where
  toExtends := { builds.toExtends with
    size_le := Nat.le_trans builds.size_le (Nat.le_of_lt m.heap.lt_size_allocate)
    object?_eq := by
      intro id old
      have differs : id ≠ m.heap.objects.size :=
        Nat.ne_of_lt (Nat.lt_of_lt_of_le old builds.size_le)
      show m.heap.allocate.object? id = _
      rw [Heap.object?_allocate, if_neg differs]
      exact builds.object?_eq id old }
  grants_property id new entry mem := by
    change entry ∈ m.heap.allocate.properties id at mem
    rw [Heap.properties_allocate] at mem
    exact (builds.grants_property id new entry mem).mono (Nat.le_of_lt m.heap.lt_size_allocate)

/-- Only new objects are written to. -/
theorem setProperty (builds : base.Builds m) (new : base.heap.objects.size ≤ id) (key : String)
    (grants : base.Grants m value) :
    base.Builds ((Effect.setProperty id key value).apply m) where
  toExtends := { builds.toExtends with
    size_le := by
      show _ ≤ (m.heap.setProperty id key value).objects.size
      rw [Heap.size_setProperty]
      exact builds.size_le
    object?_eq := by
      intro other old
      have differs : id ≠ other := Nat.ne_of_gt (Nat.lt_of_lt_of_le old new)
      show (m.heap.setProperty id key value).object? other = _
      rw [Heap.object?_setProperty, if_neg differs]
      exact builds.object?_eq other old }
  grants_property other new' entry mem := by
    have same : m.heap.objects.size ≤ (m.heap.setProperty id key value).objects.size :=
      Nat.le_of_eq (m.heap.size_setProperty id key value).symm
    rcases Heap.mem_properties_setProperty mem with ⟨-, rfl⟩ | mem
    · exact grants.mono same
    · exact (builds.grants_property other new' entry mem).mono same

/-! ### What is granted -/

section

variable (closed : base.Closed) (builds : base.Builds m)

include closed builds

theorem grants_held (held : base.Holds value) : base.Grants m value := by
  rintro id rfl
  refine ⟨Nat.lt_of_lt_of_le (closed.owns_held held id rfl) builds.size_le, Or.inr ?_⟩
  exact ⟨_, held, .here id⟩

theorem grants_of_lookup {name : String} (read : m.lookup name = .ok value) :
    base.Grants m value := by
  rcases holds_of_lookup read with rfl | held
  · exact grants_of_objectId? rfl
  · exact builds.grants_held closed (builds.holds_iff.mp held)

/-- What a granted object holds is granted: it is new, or retained with all that is reachable from
it. -/
theorem grants_of_mem (grants : base.Grants m (.object id)) {entry : String × Value}
    (mem : entry ∈ m.heap.properties id) : base.Grants m entry.2 := by
  by_cases new : base.heap.objects.size ≤ id
  · exact builds.grants_property id new entry mem
  · -- an old object is as it was, so what it holds was retained with it
    have old : id < base.heap.objects.size := Nat.lt_of_not_le new
    obtain ⟨value, held, reached⟩ := (grants id rfl).2.resolve_left new
    rw [builds.properties_eq old] at mem
    intro target is
    refine ⟨?_, Or.inr ⟨value, held, reached.snoc mem is⟩⟩
    exact Nat.lt_of_lt_of_le (closed.owns_property id entry mem target is) builds.size_le

theorem grants_property_of_grants (grants : base.Grants m value) (key : String) :
    base.Grants m (m.heap.property value key) := by
  rcases m.heap.property_eq_or_mem value key with missing | ⟨id, rfl, mem⟩
  · rw [missing]
    exact grants_of_objectId? rfl
  · exact builds.grants_of_mem closed grants mem

/-- **All that is reachable from a granted value is new or was retained before.** -/
theorem known_of_reaches (grants : base.Grants m value) (reached : m.heap.Reaches value id) :
    id < m.heap.objects.size ∧ (base.heap.objects.size ≤ id ∨ base.Retains id) := by
  induction reached with
  | here id => exact grants id rfl
  | along mem _ ih => exact ih (builds.grants_of_mem closed grants mem)

/-- An extension of a state without references that lead out of the heap is one again. -/
theorem closed_of_builds : m.Closed where
  owns_binding id name binding bound value held := by
    rw [builds.scopes_eq] at bound
    exact (closed.owns_binding id name binding bound value held).mono builds.size_le
  owns_property id entry mem := by
    by_cases new : base.heap.objects.size ≤ id
    · exact fun target is => (builds.grants_property id new entry mem target is).1
    · rw [builds.properties_eq (Nat.lt_of_not_le new)] at mem
      exact (closed.owns_property id entry mem).mono builds.size_le

/-- From what was there before, the same is reachable as before. -/
theorem reaches_of_owns (owns : base.heap.Owns value) (reached : m.heap.Reaches value id) :
    base.heap.Reaches value id :=
  reached.of_properties_eq fun _ before =>
    builds.properties_eq (before.lt_size owns closed.owns_property)

theorem retains_of_retains (retained : m.Retains id) : base.Retains id := by
  obtain ⟨value, held, reached⟩ := retained
  have before := builds.holds_iff.mp held
  exact ⟨value, before, builds.reaches_of_owns closed (closed.owns_held before) reached⟩

end

end Builds

end Machine

/-! ## Evaluation -/

section

variable {base : Machine}

mutual

/-- **An evaluation extends the state that it begins in, and its value is granted.** -/
theorem meets_evaluate_builds (closed : base.Closed) : ∀ (e : Expression) {m : Machine},
    base.Builds m →
      (evaluate e).Meets base.Builds (fun _ _ => True) (fun value m' => base.Grants m' value) m
  | .literal _ value, m, builds => by
    rw [evaluate]
    refine .done builds (Machine.grants_of_objectId? ?_)
    cases value <;> rfl
  | .identifier name, m, builds => by
    rw [evaluate]
    exact .asksOrRaises builds (fun value read => builds.grants_of_lookup closed read)
      fun _ _ => trivial
  | .object _ properties, m, builds => by
    rw [evaluate]
    refine .bind (.asks builds _) ?_
    rintro _ _ _ ⟨rfl, rfl⟩
    refine .bind (.perform builds builds.allocate) ?_
    rintro _ _ builds₁ rfl
    have has : (Effect.allocate.apply m).heap.Has (.object m.heap.objects.size) :=
      m.heap.lt_size_allocate
    refine .bind (.record builds₁ (builds₁.record _) fun _ => trivial) ?_
    rintro _ _ builds₂ rfl
    -- the object did not exist in `base`, so its properties may be written
    have new : base.heap.objects.size ≤ m.heap.objects.size := builds.size_le
    have filled := meets_fillObject_builds closed new properties builds₂
    refine .bind (filled.has (Effect.has_apply _ _ has)) ?_
    rintro _ m₃ builds₃ ⟨-, has⟩
    refine .done builds₃ ?_
    rintro _ ⟨⟩
    exact ⟨has, Or.inl new⟩
  | .member _ object property, m, builds => by
    rw [evaluate]
    refine .bind (meets_evaluate_builds closed object builds) fun value m₁ builds₁ grants => ?_
    refine .bind (.record builds₁ (builds₁.record _) fun _ => trivial) ?_
    rintro _ _ builds₂ rfl
    exact .look (.done builds₂ (builds₂.grants_property_of_grants closed grants property.name))
  | .array _ _, m, builds | .assignVariable _ _ _, m, builds | .assignMember _ _ _ _ _, m, builds
  | .call _ _ _, m, builds | .function _ _, m, builds | .unary _ _ _, m, builds
  | .binary _ _ _ _, m, builds => by
    simp only [evaluate]
    exact .done builds (Machine.grants_of_objectId? rfl)

theorem meets_fillObject_builds (closed : base.Closed) {id : ObjectId}
    (new : base.heap.objects.size ≤ id) :
    ∀ (properties : List (Property Expression)) {m : Machine}, base.Builds m →
      (fillObject id properties).Meets base.Builds (fun _ _ => True) (fun _ _ => True) m
  | [], m, builds => by
    rw [fillObject]
    exact .done builds trivial
  | ⟨_, .name key, value⟩ :: rest, m, builds => by
    rw [fillObject]
    refine .bind (meets_evaluate_builds closed value builds) fun value m₁ builds₁ grants => ?_
    refine .bind (.perform builds₁ (builds₁.setProperty new key grants)) fun _ m₂ builds₂ _ => ?_
    refine .bind (.asks builds₂ _) ?_
    rintro shown _ _ ⟨-, rfl⟩
    refine .bind (.record builds₂ (builds₂.record _) fun _ => trivial) fun _ m₃ builds₃ _ => ?_
    exact meets_fillObject_builds closed new rest builds₃
  | ⟨_, .str _, _⟩ :: rest, m, builds | ⟨_, .num _, _⟩ :: rest, m, builds => by
    simp only [fillObject]
    exact meets_fillObject_builds closed new rest builds

end

end

/-! ## No reference leads out of the heap -/

theorem Heap.Owns.apply {value : Value} (effect : Effect) (m : Machine)
    (owns : m.heap.Owns value) : (effect.apply m).heap.Owns value := by
  rintro id rfl
  have has : m.heap.Has (.object id) := owns id rfl
  exact effect.has_apply m has

namespace Machine.Closed

variable {m : Machine}

theorem initial (config : Config) : (Machine.initial config).Closed where
  owns_binding := .initial _ config
  owns_property id entry mem := by
    rw [Heap.properties_of_size_le (Nat.zero_le id)] at mem
    exact nomatch mem

theorem bind (closed : m.Closed) (name : String) {binding : Binding}
    (owns : ∀ value, binding.value = some value → m.heap.Owns value) :
    ((Effect.bind name binding).apply m).Closed where
  owns_binding := closed.owns_binding.bind name owns
  owns_property := closed.owns_property

theorem setProperty (closed : m.Closed) (id : ObjectId) (key : String) {value : Value}
    (owns : m.heap.Owns value) : ((Effect.setProperty id key value).apply m).Closed where
  owns_binding id name binding bound held is :=
    (closed.owns_binding id name binding bound held is).apply _ m
  owns_property other entry mem := by
    refine Heap.Owns.apply (.setProperty id key value) m ?_
    rcases Heap.mem_properties_setProperty mem with ⟨-, rfl⟩ | mem
    · exact owns
    · exact closed.owns_property other entry mem

theorem mute (closed : m.Closed) {effect : Effect} (mute : effect.isMute = true) :
    (effect.apply m).Closed := by
  have each := closed.owns_binding.mute mute
  cases effect with
  | bind _ _ | allocate | setProperty _ _ _ => exact nomatch mute
  | _ => exact ⟨each, closed.owns_property⟩

end Machine.Closed

/-- Values are written only when they lead to objects of the heap. -/
theorem valueRule_closed : ValueRule True Machine.Closed fun m value => m.heap.Owns value where
  evaluates e m closed :=
    (meets_evaluate_builds closed e (.refl m)).imp (fun _ builds => builds.closed_of_builds closed)
      fun _ _ _ grants id is => (grants id is).1
  plain m _ plain := m.heap.owns_of_objectId? plain
  stays _ effect m owns := owns.apply effect m
  mute _ _ isMute closed := closed.mute isMute
  binds name _ _ _ closed owns := closed.bind name owns
  assign _ id key _ _ closed _ owns := closed.setProperty id key owns

theorem closed_of_mem_states {config : Config} {program : Program} {m : Machine}
    (reached : m ∈ (runScript config program).states (.initial config)) : m.Closed := by
  have run : (runScript config program).Maintains Machine.Closed :=
    valueRule_closed.maintains_runScript (fun _ _ _ => trivial) config
  exact (run _ (.initial config)).always_of_mem m reached

/-! ## Half-built objects -/

namespace Machine

variable {m m' : Machine} {value : Value} {id : ObjectId}

/-- An object is in the heap, and neither a binding nor one of its own properties leads to it. -/
structure Fresh (id : ObjectId) (m : Machine) : Prop where
  closed : m.Closed
  lt_size : id < m.heap.objects.size
  not_retains : ¬ m.Retains id
  not_reaches : ∀ entry ∈ m.heap.properties id, ¬ m.heap.Reaches entry.2 id

/-- The object that is made next is fresh. -/
theorem Closed.fresh_allocate (closed : m.Closed) :
    (Effect.allocate.apply m).Fresh m.heap.objects.size where
  closed := (Builds.refl m).allocate.closed_of_builds closed
  lt_size := m.heap.lt_size_allocate
  not_retains retained := by
    have before := (Builds.refl m).allocate.retains_of_retains closed retained
    exact Nat.lt_irrefl _ (closed.lt_of_retains before)
  not_reaches entry mem := by
    change entry ∈ m.heap.allocate.properties _ at mem
    rw [Heap.properties_allocate, Heap.properties_of_size_le (Nat.le_refl _)] at mem
    exact nomatch mem

namespace Fresh

theorem builds (fresh : m.Fresh id) (builds : m.Builds m') : m'.Fresh id where
  closed := builds.closed_of_builds fresh.closed
  lt_size := Nat.lt_of_lt_of_le fresh.lt_size builds.size_le
  not_retains retained := fresh.not_retains (builds.retains_of_retains fresh.closed retained)
  not_reaches entry mem reached := by
    rw [builds.properties_eq fresh.lt_size] at mem
    have owns := fresh.closed.owns_property id entry mem
    exact fresh.not_reaches entry mem (builds.reaches_of_owns fresh.closed owns reached)

/-- For what is evaluated next the object is an old one that nothing retains. -/
theorem not_reaches_of_grants (fresh : m.Fresh id) (builds : m.Builds m')
    (grants : m.Grants m' value) : ¬ m'.heap.Reaches value id := by
  intro reached
  rcases (builds.known_of_reaches fresh.closed grants reached).2 with new | retained
  · exact Nat.not_lt_of_le new fresh.lt_size
  · exact fresh.not_retains retained

theorem setProperty (fresh : m.Fresh id) (key : String) (owns : m.heap.Owns value)
    (unreached : ¬ m.heap.Reaches value id) :
    ((Effect.setProperty id key value).apply m).Fresh id where
  closed := fresh.closed.setProperty id key owns
  lt_size := by
    show _ < (m.heap.setProperty id key value).objects.size
    rw [Heap.size_setProperty]
    exact fresh.lt_size
  not_retains := by
    rintro ⟨held, holds, reached⟩
    have before : ¬ m.heap.Reaches held id := fun path => fresh.not_retains ⟨held, holds, path⟩
    exact before (Heap.reaches_of_setProperty key value before reached)
  not_reaches entry mem reached := by
    rcases Heap.mem_properties_setProperty mem with ⟨-, rfl⟩ | mem
    · exact unreached (Heap.reaches_of_setProperty key value unreached reached)
    · have before := fresh.not_reaches entry mem
      exact before (Heap.reaches_of_setProperty key value before reached)

theorem record (fresh : m.Fresh id) (event : Event) : ((Effect.record event).apply m).Fresh id :=
  fresh.builds ((Builds.refl m).record event)

end Fresh

/-- A value that does not lead to an object is shown alike before and after it is written there. -/
theorem shown_setProperty (key : String) (unreached : ¬ m.heap.Reaches value id) :
    ((Effect.setProperty id key value).apply m).shown value = m.shown value :=
  congrArg (Shown.mk value.text) (Heap.snapshot_setProperty key value unreached)

end Machine

section

variable {m : Machine} {id : ObjectId}

theorem meets_evaluate_fresh (e : Expression) (fresh : m.Fresh id) :
    (evaluate e).Meets (Machine.Fresh id) (fun _ _ => True)
      (fun value m' => m'.heap.Owns value ∧ ¬ m'.heap.Reaches value id) m :=
  (meets_evaluate_builds fresh.closed e (.refl m)).imp (fun _ builds => fresh.builds builds)
    fun _ _ builds grants =>
      ⟨fun target is => (grants target is).1, fresh.not_reaches_of_grants builds grants⟩

/-- **While a literal is evaluated, its object stays fresh.** -/
theorem meets_fillObject_fresh (properties : List (Property Expression)) (fresh : m.Fresh id) :
    (fillObject id properties).Meets (Machine.Fresh id) (fun _ _ => True) (fun _ _ => True) m := by
  induction properties generalizing m with
  | nil =>
    rw [fillObject]
    exact .done fresh trivial
  | cons property rest ih =>
    obtain ⟨span, key, e⟩ := property
    cases key with
    | name key =>
      rw [fillObject]
      refine .bind (meets_evaluate_fresh e fresh) ?_
      rintro value m₁ fresh₁ ⟨owns, unreached⟩
      refine .bind (.perform fresh₁ (fresh₁.setProperty key owns unreached)) fun _ m₂ fresh₂ _ => ?_
      refine .bind (.asks fresh₂ _) ?_
      rintro shown _ _ ⟨-, rfl⟩
      exact .bind (.record fresh₂ (fresh₂.record _) fun _ => trivial) fun _ _ fresh₃ _ => ih fresh₃
    | str _ | num _ =>
      simp only [fillObject]
      exact ih fresh

/-- Makes an object and gives it the first properties of a literal. -/
def beginObject (id : ObjectId) (properties : List (Property Expression)) : Exec Unit := do
  .perform .allocate
  record (.createObject id)
  fillObject id properties

theorem fillObject_append (id : ObjectId) (first further : List (Property Expression)) :
    fillObject id (first ++ further) = (do fillObject id first; fillObject id further) := by
  induction first with
  | nil => rfl
  | cons property rest ih =>
    obtain ⟨span, key, e⟩ := property
    cases key with
    | name key => simp only [List.cons_append, fillObject, ih, bind_assoc]
    | str _ | num _ => simp only [List.cons_append, fillObject, ih]

theorem beginObject_append (id : ObjectId) (first further : List (Property Expression)) :
    beginObject id (first ++ further) = (do beginObject id first; fillObject id further) := by
  simp only [beginObject, fillObject_append, bind_assoc]

theorem evaluate_object (span : Span) (properties : List (Property Expression)) :
    evaluate (.object span properties) = (do
      let id ← .asks fun m => m.heap.objects.size
      beginObject id properties
      return .object id) := by
  simp only [evaluate, beginObject, bind_assoc]

theorem meets_beginObject_fresh (closed : m.Closed) (properties : List (Property Expression)) :
    (beginObject m.heap.objects.size properties).Meets
      (fun s => s = m ∨ s.Fresh m.heap.objects.size) (fun _ _ => True)
      (fun _ m' => m'.Fresh m.heap.objects.size) m := by
  have made := closed.fresh_allocate
  refine .act (Or.inl rfl) ?_
  have filled : (record (.createObject m.heap.objects.size) >>= fun _ =>
      fillObject m.heap.objects.size properties).Meets (Machine.Fresh m.heap.objects.size)
      (fun _ _ => True) (fun _ _ => True) (Effect.allocate.apply m) :=
    .bind (.record made (made.record _) fun _ => trivial) fun _ _ fresh _ =>
      meets_fillObject_fresh properties fresh
  exact filled.imp (fun _ => Or.inr) fun _ _ fresh _ => fresh

theorem meets_object_fresh (closed : m.Closed) (span : Span)
    (properties : List (Property Expression)) :
    (evaluate (.object span properties)).Meets (fun s => s = m ∨ s.Fresh m.heap.objects.size)
      (fun _ _ => True) (fun _ _ => True) m := by
  rw [evaluate_object]
  refine .bind (.asks (Or.inl rfl) _) ?_
  rintro _ _ _ ⟨rfl, rfl⟩
  exact .bind (meets_beginObject_fresh closed properties) fun _ _ _ fresh =>
    .done (Or.inr fresh) trivial

end

/-! ## Purity -/

/-- **Expressions are pure up to allocation.**  Let an expression be evaluated in any state of any
run.

In every state of the evaluation, up to the last one and whether it ends with a value or with a
fault, the scopes, the table of functions, the stack and all objects that were there are as they
were; there are only further steps and further objects.  Every object that is reachable from the
value is new, or was reachable from a binding before.

If the expression is an object literal, no binding and no property of the new object leads to it in
any of these states.  When the literal has begun with some of its properties and the next one has
got its value, the object cannot be reached from that value; so it is shown alike before and after
it is written, and the evaluation goes on as if it had been shown before. -/
theorem evaluate_pure_up_to_allocation {config : Config} {program : Program} {m : Machine}
    (reached : m ∈ (runScript config program).states (.initial config)) (e : Expression) :
    (∀ s ∈ (evaluate e).states m, m.Extends s) ∧
    (∀ value m', (evaluate e).run m = (.ok value, m') → ∀ id, m'.heap.Reaches value id →
      (m.heap.objects.size ≤ id ∧ id < m'.heap.objects.size) ∨ m.Retains id) ∧
    ∀ span properties, e = .object span properties → ∀ id, id = m.heap.objects.size →
      (∀ s ∈ (evaluate e).states m, ¬ s.Retains id ∧
        ∀ entry ∈ s.heap.properties id, ¬ s.heap.Reaches entry.2 id) ∧
      ∀ before place key given after, properties = before ++ ⟨place, .name key, given⟩ :: after →
        ∀ m₁ value m₂, (beginObject id before).run m = (.ok (), m₁) →
          (evaluate given).run m₁ = (.ok value, m₂) →
            ¬ m₂.heap.Reaches value id ∧
            ((Effect.setProperty id key value).apply m₂).shown value = m₂.shown value ∧
            (evaluate e).run m = Exec.run (do
              .perform (.setProperty id key value)
              record (.initializeProperty id key (m₂.shown value))
              fillObject id after
              return .object id) m₂ := by
  have closed := closed_of_mem_states reached
  have evaluated := meets_evaluate_builds closed e (.refl m)
  refine ⟨fun s hs => (evaluated.always_of_mem s hs).toExtends, ?_, ?_⟩
  · intro value m' run id path
    have builds := evaluated.always_of_mem _ ((evaluate e).run_mem_states m)
    rw [run] at builds
    obtain ⟨inside, new | retained⟩ :=
      builds.known_of_reaches closed (evaluated.ensures_of_ok run) path
    · exact Or.inl ⟨new, inside⟩
    · exact Or.inr retained
  · rintro span properties rfl _ rfl
    refine ⟨fun s hs => ?_, ?_⟩
    · rcases (meets_object_fresh closed span properties).always_of_mem s hs with rfl | fresh
      · refine ⟨fun retained => ?_, fun entry mem => ?_⟩
        · exact Nat.lt_irrefl _ (closed.lt_of_retains retained)
        · rw [Heap.properties_of_size_le (Nat.le_refl _)] at mem
          exact nomatch mem
      · exact ⟨fresh.not_retains, fresh.not_reaches⟩
    · rintro before place key given after rfl m₁ value m₂ begun next
      have fresh := (meets_beginObject_fresh closed before).ensures_of_ok begun
      obtain ⟨-, unreached⟩ := (meets_evaluate_fresh given fresh).ensures_of_ok next
      have shown := Machine.shown_setProperty key unreached
      refine ⟨unreached, shown, ?_⟩
      rw [evaluate_object, Exec.run_asks_bind, beginObject_append, bind_assoc,
        Exec.run_bind_of_ok begun, fillObject, bind_assoc, Exec.run_bind_of_ok next]
      simp only [bind_assoc, Exec.run_perform_bind, Exec.run_asks_bind, shown]

/-- The script `var o = {};`. -/
def keepsObject : Program where
  body :=
    [.variables ⟨⟨0, 0⟩, .varKind, [⟨⟨0, 0⟩, ⟨"o", ⟨0, 0⟩⟩, some (.object ⟨0, 0⟩ [])⟩]⟩]
  functions := #[]

/-- The literal `{ p: o, q: {} }`. -/
def sharesObject : Expression :=
  .object ⟨0, 0⟩ [⟨⟨0, 0⟩, .name "p", .identifier ⟨"o", ⟨0, 0⟩⟩⟩,
    ⟨⟨0, 0⟩, .name "q", .object ⟨0, 0⟩ []⟩]

/-- After the script `var o = {};` the literal `{ p: o, q: {} }` makes the objects 1 and 2, and
the only other object that its value may lead to is the one that `o` retains. -/
theorem evaluate_pure_of_sharing :
    let m := ((runScript {} keepsObject).run (.initial {})).2
    let m' := ((evaluate sharesObject).run m).2
    (evaluate sharesObject).run m = (.ok (.object 1), m') ∧ m'.scopes = m.scopes ∧
      m'.heap.object? 0 = m.heap.object? 0 ∧ ¬ m'.Retains 1 ∧
      ∀ id, m'.heap.Reaches (.object 1) id → (1 ≤ id ∧ id < 3) ∨ m.Retains id := by
  intro m m'
  have run : (evaluate sharesObject).run m = (.ok (.object 1), m') := by rfl
  have last := (evaluate sharesObject).run_mem_states m
  obtain ⟨pure, known, literal⟩ := evaluate_pure_up_to_allocation
    ((runScript {} keepsObject).run_mem_states (.initial {})) sharesObject
  have extended := pure m' last
  refine ⟨run, extended.scopes_eq, extended.object?_eq 0 (by decide), ?_, known _ m' run⟩
  exact ((literal _ _ rfl 1 (by rfl)).1 m' last).1

end ScriptTrace
