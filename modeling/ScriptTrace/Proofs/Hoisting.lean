import ScriptTrace.Proofs.Contract
import ScriptTrace.Proofs.InsertionOrder
import ScriptTrace.Proofs.Ledger

/-!
# Hoisting: the last declaration wins, the first one gives the place

Hoisting is one pass over the declarations that stand directly in a list of statements.  Every
declaration writes its name to the scope of the running frame, in the way of tables: a name that is
there keeps its place and gets the new binding.  So a name ends up with the binding of its last
declaration, and the new names stand in the order of their first declarations.

The steps of the pass tell the same story.  A variable has one step, and a function has two, of
which the second tells of the binding.  A step may be the one too many, and then the pass stops
there with a fault.  Since a binding is told before it is made, the scope is always what the
recorded steps say (`Machine.Hoists`): the reading of a step is by its kind and by the fields of its
data alone (`Step.notice`).

* `Hoistable`, `hoistables`: what a list of statements declares, in order.
* `Step.notice`, `Notice.entry?`: what a step tells of a declaration.
* `Exec.Announces`: an execution that hoists along a list of notices, as far as it gets.
* `hoist_last_declaration_wins`: the scope and the steps after hoisting.
-/

namespace ScriptTrace

/-! ## Declarations -/

/-- A declaration that hoisting deals with. -/
inductive Hoistable where
  | function (name : String)
  | variable (kind : DeclarationKind) (name : String)

namespace Hoistable

/-- The name that is declared. -/
def name : Hoistable → String
  | .function name | .variable _ name => name

/-- What the name is bound to before the statements run. -/
def binding : Hoistable → Binding
  | .function name => ⟨true, some (.function name)⟩
  | .variable .varKind _ => ⟨true, some .undefined⟩
  | .variable .letKind _ | .variable .constKind _ => ⟨false, none⟩

end Hoistable

/-- What a statement itself declares.  Functions count in a script only. -/
def Statement.hoistables (mode : HoistMode) : Statement → List Hoistable
  | .functionDeclaration _ name _ => if mode = .script then [.function name.name] else []
  | .variables declaration =>
    declaration.declarators.map fun d => .variable declaration.kind d.name.name
  | _ => []

/-- What a list of statements declares directly, in order. -/
def hoistables (mode : HoistMode) (statements : List Statement) : List Hoistable :=
  statements.flatMap (Statement.hoistables mode)

/-- The last declaration of a name. -/
def lastHoistable? (mode : HoistMode) (statements : List Statement) (name : String) :
    Option Hoistable :=
  (hoistables mode statements).reverse.find? fun d => d.name = name

/-! ## What the steps tell -/

/-- What a step tells of a declaration: its kind, the name, and what the name is bound to from then
on. -/
structure Notice where
  kind : StepKind
  name : Option String
  binding : Option Binding
  deriving DecidableEq

/-- The name that a notice binds. -/
def Notice.entry? (n : Notice) : Option (String × Binding) :=
  n.name.bind fun name => n.binding.map fun binding => (name, binding)

/-- The binding that a step tells of, read off its kind and its data. -/
def Step.binding? (s : Step) : Option Binding :=
  match s.kind with
  | .declareVariable =>
    match s.field? "initialized" with
    | some (.bool true) => some ⟨true, some .undefined⟩
    | some (.bool false) => some ⟨false, none⟩
    | _ => none
  | .referenceVariable => (s.textField? "name").map fun name => ⟨true, some (.function name)⟩
  | _ => none

/-- What a step tells of a declaration. -/
def Step.notice (s : Step) : Notice :=
  ⟨s.kind, s.textField? "name", s.binding?⟩

/-- The bindings that steps tell of, in order. -/
def boundBySteps (steps : List Step) : List (String × Binding) :=
  (steps.map Step.notice).filterMap Notice.entry?

theorem boundBySteps_append (first further : List Step) :
    boundBySteps (first ++ further) = boundBySteps first ++ boundBySteps further := by
  simp only [boundBySteps, List.map_append, List.filterMap_append]

/-- The steps of a declaration: one for a variable, and two for a function. -/
def Hoistable.notices (d : Hoistable) : List Notice :=
  match d with
  | .function name =>
    [⟨.allocateHeapObject, some name, none⟩, ⟨.referenceVariable, some name, some d.binding⟩]
  | .variable _ name => [⟨.declareVariable, some name, some d.binding⟩]

/-- The bindings that the steps of declarations tell of are those of the declarations. -/
theorem filterMap_entry?_notices (ds : List Hoistable) :
    (ds.flatMap Hoistable.notices).filterMap Notice.entry? =
      ds.map fun d => (d.name, d.binding) := by
  induction ds with
  | nil => rfl
  | cons d ds ih =>
    rw [List.flatMap_cons, List.filterMap_append, ih]
    cases d <;> rfl

theorem lookup_map_hoistables (ds : List Hoistable) (name : String) :
    (ds.map fun d => (d.name, d.binding)).lookup name =
      (ds.find? fun d => d.name = name).map Hoistable.binding := by
  induction ds with
  | nil => rfl
  | cons d ds ih =>
    by_cases same : d.name = name
    · simp [same]
    · have differs : (name == d.name) = false := by simpa using Ne.symm same
      simp [List.lookup_cons, same, differs, ih]

/-! ## Hoisting, as far as it gets -/

namespace Machine

/-- The names that steps tell of are bound in the scope of the running frame; nothing else but the
table of functions is different. -/
structure Hoists (m : Machine) (new : List Step) (m' : Machine) : Prop where
  steps_eq : m'.recorder.steps.toList = m.recorder.steps.toList ++ new
  limit_eq : m'.recorder.limit = m.recorder.limit
  scopes_eq : m'.scopes = m.scopes.putAll m.currentScope (boundBySteps new)
  stack_eq : m'.stack = m.stack
  objects_eq : m'.heap.objects = m.heap.objects
  faultSite_eq : m'.faultSite = m.faultSite

namespace Hoists

variable {m m' m'' : Machine} {new further : List Step}

theorem refl (m : Machine) : m.Hoists [] m where
  steps_eq := (List.append_nil _).symm
  limit_eq := rfl
  scopes_eq := rfl
  stack_eq := rfl
  objects_eq := rfl
  faultSite_eq := rfl

theorem trans (first : m.Hoists new m') (second : m'.Hoists further m'') :
    m.Hoists (new ++ further) m'' where
  steps_eq := by rw [second.steps_eq, first.steps_eq, List.append_assoc]
  limit_eq := second.limit_eq.trans first.limit_eq
  scopes_eq := by
    have same : m'.currentScope = m.currentScope := by
      rw [currentScope, first.stack_eq, currentScope]
    rw [second.scopes_eq, first.scopes_eq, same, boundBySteps_append, Scopes.putAll_append]
  stack_eq := second.stack_eq.trans first.stack_eq
  objects_eq := second.objects_eq.trans first.objects_eq
  faultSite_eq := second.faultSite_eq.trans first.faultSite_eq

end Hoists

end Machine

namespace Exec

/-- From every state, an execution hoists along a list of notices, to its end or up to the place
where there may be no more steps. -/
def Announces (x : Exec Unit) (notices : List Notice) : Prop :=
  ∀ m : Machine, ∃ new, m.Hoists new (x.run m).2 ∧
    ((x.run m).1 = .ok () ∧ new.map Step.notice = notices ∨
      ∃ limit rest, (x.run m).1 = .error (.stepLimit limit) ∧
        (x.run m).2.recorder.reached? = some limit ∧ rest ≠ [] ∧
        new.map Step.notice ++ rest = notices)

namespace Announces

theorem done : (Exec.done ()).Announces [] :=
  fun m => ⟨[], .refl m, Or.inl ⟨rfl, rfl⟩⟩

theorem asks_bind {α : Type} {f : Machine → α} {next : α → Exec Unit} {notices : List Notice}
    (each : ∀ a, (next a).Announces notices) : (asks f >>= next).Announces notices :=
  fun m => each (f m) m

/-- The table of functions is not told of by a step of its own. -/
theorem storeFunction_bind {name : String} {id : FunctionId} {next : Unit → Exec Unit}
    {notices : List Notice} (rest : (next ()).Announces notices) :
    (perform (.storeFunction name id) >>= next).Announces notices := by
  intro m
  obtain ⟨new, hoists, outcome⟩ := rest ((Effect.storeFunction name id).apply m)
  exact ⟨new, ⟨hoists.steps_eq, hoists.limit_eq, hoists.scopes_eq, hoists.stack_eq,
    hoists.objects_eq, hoists.faultSite_eq⟩, outcome⟩

theorem bind {x y : Exec Unit} {first second : List Notice} (hx : x.Announces first)
    (hy : y.Announces second) : (x >>= fun _ => y).Announces (first ++ second) := by
  intro m
  obtain ⟨new, hoists, ⟨ended, told⟩ | ⟨limit, rest, stopped, reached, more, told⟩⟩ := hx m
  · have outcome : x.run m = (.ok (), (x.run m).2) := Prod.ext ended rfl
    rw [run_bind_of_ok outcome]
    obtain ⟨new', hoists', outcome'⟩ := hy (x.run m).2
    refine ⟨new ++ new', hoists.trans hoists', ?_⟩
    rcases outcome' with ⟨ended', told'⟩ | ⟨limit, rest, stopped, reached, more, told'⟩
    · exact Or.inl ⟨ended', by rw [List.map_append, told, told']⟩
    · refine Or.inr ⟨limit, rest, stopped, reached, more, ?_⟩
      rw [List.map_append, told, List.append_assoc, told']
  · -- the notices of the second execution are among those that are missing
    have outcome : x.run m = (.error (.stepLimit limit), (x.run m).2) := Prod.ext stopped rfl
    rw [run_bind_of_error outcome]
    refine ⟨new, hoists, Or.inr ⟨limit, rest ++ second, rfl, reached, ?_, ?_⟩⟩
    · simp [more]
    · rw [← List.append_assoc, told]

/-- One step: it is recorded and what it tells of is done, or it is the one too many. -/
theorem record_bind {event : Event} {next : Unit → Exec Unit} {notice : Notice}
    (tells : ∀ id, Step.notice ⟨id, event.kind, event.detail, some event.data⟩ = notice)
    (acts : ∀ m : Machine, ((next ()).run m).1 = .ok () ∧ ((next ()).run m).2 =
      { m with scopes := m.scopes.putAll m.currentScope notice.entry?.toList }) :
    (record event >>= next).Announces [notice] := by
  intro m
  cases room : m.recorder.reached? with
  | some limit =>
    rw [run_bind_of_error (run_record_of_reached room)]
    exact ⟨[], .refl m, Or.inr ⟨limit, [notice], rfl, room, by simp, rfl⟩⟩
  | none =>
    rw [run_bind_of_ok (run_record_of_room room)]
    obtain ⟨ended, after⟩ := acts ((Effect.record event).apply m)
    rw [after]
    refine ⟨[_], ⟨m.recorder.toList_steps_append _ _ _, rfl, ?_, rfl, rfl, rfl⟩, Or.inl ⟨ended, ?_⟩⟩
    · rw [boundBySteps, List.map_singleton, tells]
      cases bound : notice.entry? <;> simp [bound] <;> rfl
    · rw [List.map_singleton, tells]

/-- A step that tells of no binding. -/
theorem record_silent {event : Event} {kind : StepKind} {name : Option String}
    (tells : ∀ id, Step.notice ⟨id, event.kind, event.detail, some event.data⟩ =
      ⟨kind, name, none⟩) : (record event).Announces [⟨kind, name, none⟩] := by
  rw [← bind_pure (record event)]
  refine .record_bind tells fun m => ⟨rfl, ?_⟩
  cases name <;> rfl

end Announces

end Exec

/-! ## The pass over the statements -/

/-- A binding is told and made. -/
theorem announces_record_bind {event : Event} {name : String} {binding : Binding} {kind : StepKind}
    (tells : ∀ id, Step.notice ⟨id, event.kind, event.detail, some event.data⟩ =
      ⟨kind, some name, some binding⟩) :
    (record event >>= fun _ => .perform (.bind name binding)).Announces
      [⟨kind, some name, some binding⟩] :=
  .record_bind tells fun _ => ⟨rfl, rfl⟩

theorem announces_hoistFunction (name : String) (id : FunctionId) :
    (hoistFunction name id).Announces (Hoistable.function name).notices := by
  rw [hoistFunction]
  show Exec.Announces _ ([_] ++ [_])
  refine .bind (.record_silent fun _ => rfl) (.storeFunction_bind (.asks_bind fun scope => ?_))
  exact announces_record_bind fun _ => rfl

theorem announces_hoistVariables (kind : DeclarationKind) (declarators : List Declarator) :
    (hoistVariables kind declarators).Announces
      ((declarators.map fun d => Hoistable.variable kind d.name.name).flatMap
        Hoistable.notices) := by
  induction declarators with
  | nil =>
    rw [hoistVariables]
    exact .done
  | cons declarator rest ih =>
    rw [hoistVariables, List.map_cons, List.flatMap_cons]
    refine .asks_bind fun scope => ?_
    rw [← bind_assoc]
    have same : kind.hoisted = (Hoistable.variable kind declarator.name.name).binding := by
      cases kind <;> rfl
    rw [same]
    refine .bind (show Exec.Announces _ [_] from announces_record_bind fun _ => ?_) ih
    cases kind <;> rfl

/-- **Hoisting is one pass over the declarations**, in source order. -/
theorem announces_hoist (mode : HoistMode) (statements : List Statement) :
    (hoist mode statements).Announces ((hoistables mode statements).flatMap Hoistable.notices) := by
  induction statements with
  | nil =>
    rw [hoist]
    exact .done
  | cons statement rest ih =>
    rw [hoistables, List.flatMap_cons, List.flatMap_append]
    cases statement with
    | functionDeclaration span name id =>
      rw [hoist]
      by_cases script : mode = .script
      · rw [if_pos script, Statement.hoistables, if_pos script]
        exact .bind (announces_hoistFunction name.name id) ih
      · rw [if_neg script, Statement.hoistables, if_neg script]
        exact ih
    | «variables» declaration =>
      rw [hoist]
      exact .bind (announces_hoistVariables _ _) ih
    | _ =>
      simp only [hoist]
      exact ih

/-! ## The scope and the steps after hoisting -/

/-- **The last declaration wins, and the first one gives the place.**  Let a list of statements be
hoisted in any state of any run.  The steps that are recorded tell of the new bindings, and the
scope of the running frame has exactly these; its link and all other scopes, the stack and the
objects are as they were.

If hoisting ends with a result, there is one step for every variable that is declared directly and
there are two for every function, in source order and no others.  The names that were there stand in
their places, and the new ones follow in the order of their first declarations.  A name that is
declared has the binding of its last declaration, and every other name has the one that it had.

If hoisting ends with a fault, there may be no more steps, and those that were recorded are the
first ones of these, but not all of them. -/
theorem hoist_last_declaration_wins {config : Config} {program : Program} {m : Machine}
    (reached : m ∈ (runScript config program).states (.initial config)) (mode : HoistMode)
    (statements : List Statement) :
    ∃ outcome m' scope scope' new, (hoist mode statements).run m = (outcome, m') ∧
      m.scopes.get? m.currentScope = some scope ∧ m'.scopes.get? m.currentScope = some scope' ∧
      scope'.name = scope.name ∧ scope'.outer = scope.outer ∧
      (∀ other, other ≠ m.currentScope → m'.scopes.get? other = m.scopes.get? other) ∧
      m'.stack = m.stack ∧ m'.heap.objects = m.heap.objects ∧
      m'.recorder.steps.toList = m.recorder.steps.toList ++ new ∧
      scope'.bindings = scope.bindings.putAll (boundBySteps new) ∧
      (outcome = .ok () →
        new.map Step.notice = (hoistables mode statements).flatMap Hoistable.notices ∧
        scope'.bindings.keys = scope.bindings.keys ++
          (((hoistables mode statements).map Hoistable.name).filter
            fun name => name ∉ scope.bindings.keys).eraseDups ∧
        ∀ name, scope'.bindings.get? name =
          ((lastHoistable? mode statements name).map Hoistable.binding).or
            (scope.bindings.get? name)) ∧
      ∀ fault, outcome = .error fault →
        ∃ limit rest, fault = .stepLimit limit ∧ m'.recorder.reached? = some limit ∧ rest ≠ [] ∧
          new.map Step.notice ++ rest = (hoistables mode statements).flatMap Hoistable.notices := by
  have inside := (Machine.linked_of_mem_states reached).walk.start_lt_size
  obtain ⟨scope, here⟩ : ∃ scope, m.scopes.get? m.currentScope = some scope :=
    ⟨_, Array.getElem?_eq_getElem inside⟩
  obtain ⟨new, hoists, outcome⟩ := announces_hoist mode statements m
  have after := m.scopes.get?_putAll m.currentScope (boundBySteps new)
  rw [← hoists.scopes_eq] at after
  refine ⟨_, _, scope, { scope with bindings := scope.bindings.putAll (boundBySteps new) }, new,
    rfl, here, ?_, rfl, rfl, ?_, hoists.stack_eq, hoists.objects_eq, hoists.steps_eq, rfl, ?_, ?_⟩
  · rw [after, if_pos rfl, here]
    rfl
  · intro other differs
    rw [after, if_neg differs.symm]
  · intro ended
    rcases outcome with ⟨-, told⟩ | ⟨limit, rest, stopped, -⟩
    · have entries : boundBySteps new =
          (hoistables mode statements).map fun d => (d.name, d.binding) := by
        rw [boundBySteps, told, filterMap_entry?_notices]
      refine ⟨told, ?_, fun name => ?_⟩
      · rw [Table.keys_putAll, entries, List.map_map]
        rfl
      · rw [Table.get?_putAll, entries, ← List.map_reverse, lookup_map_hoistables, lastHoistable?]
    · exact nomatch stopped.symm.trans ended
  · intro fault stops
    rcases outcome with ⟨ended, -⟩ | ⟨limit, rest, stopped, full, more, told⟩
    · exact nomatch ended.symm.trans stops
    · exact ⟨limit, rest, Except.error.inj (stops.symm.trans stopped), full, more, told⟩

/-- The statements `var a; function f() {} let a;`. -/
def declaresTwice : List Statement :=
  [.variables ⟨⟨0, 0⟩, .varKind, [⟨⟨0, 0⟩, ⟨"a", ⟨0, 0⟩⟩, none⟩]⟩,
    .functionDeclaration ⟨0, 0⟩ ⟨"f", ⟨0, 0⟩⟩ 0,
    .variables ⟨⟨0, 0⟩, .letKind, [⟨⟨0, 0⟩, ⟨"a", ⟨0, 0⟩⟩, none⟩]⟩]

/-- After `var a; function f() {} let a;` the name `a` stands first and cannot be read. -/
theorem hoist_of_declaresTwice :
    ∃ m' scope', (hoist .script declaresTwice).run (.initial {}) = (.ok (), m') ∧
      m'.scopes.get? globalScope = some scope' ∧ scope'.bindings.keys = ["a", "f"] ∧
      scope'.bindings.get? "a" = some .uninitialized ∧
      scope'.bindings.get? "f" = some (.holding (.function "f")) := by
  obtain ⟨outcome, m', scope, scope', new, run, here, there, -, -, -, -, -, -, -, ok, -⟩ :=
    hoist_last_declaration_wins ((runScript {} {}).mem_states_start (.initial {})) .script
      declaresTwice
  have ended : outcome = .ok () := (congrArg Prod.fst run).symm
  obtain ⟨-, keys, bound⟩ := ok ended
  obtain rfl := Option.some.inj here
  refine ⟨m', scope', by rw [run, ended], there, ?_, bound "a", bound "f"⟩
  rw [keys]
  decide

/-- With room for two steps, the function is in the table when hoisting stops, but is not bound. -/
example :
    ((hoist .script declaresTwice).run (.initial { maxSteps := some 2 })).2.heap.function? "f" =
      some 0 ∧
    ((hoist .script declaresTwice).run (.initial { maxSteps := some 2 })).2.scopes.binding? "f"
      globalScope = none := by
  decide

end ScriptTrace
