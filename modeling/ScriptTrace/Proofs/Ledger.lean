import Mathlib.Data.List.Forall2
import ScriptTrace.Proofs.CallStack
import ScriptTrace.Proofs.ScopeChain

/-!
# The trace is a faithful log

The steps of a trace tell of every variable that is bound and of every property that is written.  A
`Ledger` is what a reader keeps who has nothing but the steps: a stack of scopes and a list of
objects, each with its names in order, and for every name the data that were logged for it last.
`Ledger.ofSteps` reads the steps one by one, by their kinds and the fields of their data alone.

## In step with the state

Between two actions the ledger and the state agree (`Machine.Logged`): the scopes of the ledger are
those of the frames on the stack, and its objects are those of the heap.  No single effect keeps
this.  A binding is told before it is made, a property of an object literal is made before it is
told, and a frame is told before it is there and gone before its end is told.  So the functions of
the interpreter are followed, and the two halves of an action are taken together.

A fault can only come between the halves when there may be no more steps, and then an object may be
ahead of the ledger, or a frame may be.  A binding never is, because it is told first.  So after a
fault the scope of the script still agrees (`Machine.LoggedGlobally`), which is all that holds.

* `Ledger`, `Ledger.ofSteps`: reading the steps.
* `Machine.Logged`, `Exec.KeepsLog`: agreement with the state, and executions that keep it.
* `runProgram_is_faithful_log`: what the steps of a whole run tell.
-/

namespace ScriptTrace

/-! ## Tables that agree name by name -/

namespace Table

variable {α β : Type} {R : α → β → Prop} {t : Table α} {u : Table β}

/-- Two tables have the same names in the same order, with related values. -/
def Agrees (R : α → β → Prop) (t : Table α) (u : Table β) : Prop :=
  List.Forall₂ (fun a b => a.1 = b.1 ∧ R a.2 b.2) t.entries u.entries

namespace Agrees

theorem empty : (Table.empty : Table α).Agrees R (Table.empty : Table β) :=
  .nil

theorem put (h : t.Agrees R u) (key : String) {a : α} {b : β} (related : R a b) :
    (t.put key a).Agrees R (u.put key b) := by
  obtain ⟨es⟩ := t
  obtain ⟨fs⟩ := u
  change List.Forall₂ _ es fs at h
  show List.Forall₂ _ (putIn key a es) (putIn key b fs)
  induction h with
  | nil => exact .cons ⟨rfl, related⟩ .nil
  | @cons e f es fs head tail ih =>
    obtain ⟨k, v⟩ := e
    obtain ⟨k', w⟩ := f
    obtain ⟨rfl, hv⟩ : k = k' ∧ R v w := head
    by_cases same : k = key
    · rw [putIn, putIn, if_pos same, if_pos same]
      exact .cons ⟨rfl, related⟩ tail
    · rw [putIn, putIn, if_neg same, if_neg same]
      exact .cons ⟨rfl, hv⟩ ih

/-- A name of the second table is in the first one, with a related value. -/
theorem exists_get? (h : t.Agrees R u) {key : String} {b : β} (found : u.get? key = some b) :
    ∃ a, t.get? key = some a ∧ R a b := by
  obtain ⟨es⟩ := t
  obtain ⟨fs⟩ := u
  change List.Forall₂ _ es fs at h
  change getIn? key fs = some b at found
  show ∃ a, getIn? key es = some a ∧ R a b
  induction h with
  | nil => exact nomatch found
  | @cons e f es fs head tail ih =>
    obtain ⟨k, v⟩ := e
    obtain ⟨k', w⟩ := f
    obtain ⟨rfl, hv⟩ : k = k' ∧ R v w := head
    rw [getIn?] at found ⊢
    by_cases same : k = key
    · rw [if_pos same] at found ⊢
      exact ⟨v, rfl, Option.some.inj found ▸ hv⟩
    · rw [if_neg same] at found ⊢
      exact ih found

/-- What related values have in common stands under the same names in the same order. -/
theorem map_entries_eq {γ : Type} {f : α → γ} {g : β → γ} (h : t.Agrees R u)
    (same : ∀ a b, R a b → f a = g b) :
    t.entries.map (fun e => (e.1, f e.2)) = u.entries.map fun e => (e.1, g e.2) := by
  obtain ⟨es⟩ := t
  obtain ⟨fs⟩ := u
  change List.Forall₂ _ es fs at h
  show es.map _ = fs.map _
  induction h with
  | nil => rfl
  | cons head tail ih => rw [List.map_cons, List.map_cons, head.1, same _ _ head.2, ih]

theorem keys_eq (h : t.Agrees R u) : t.keys = u.keys := by
  have names := congrArg (List.map Prod.fst)
    (h.map_entries_eq (f := fun _ => ()) (g := fun _ => ()) fun _ _ _ => rfl)
  rwa [List.map_map, List.map_map] at names

end Agrees

end Table

/-! ## Lists that agree entry by entry -/

section Lists

variable {α β : Type} {R : α → β → Prop} {xs : List α} {ys : List β}

theorem exists_getLast?_of_forall₂ (h : List.Forall₂ R xs ys) {b : β}
    (last : ys.getLast? = some b) : ∃ a, xs.getLast? = some a ∧ R a b := by
  rw [List.getLast?_eq_head?_reverse] at last ⊢
  have reversed := List.forall₂_reverse_iff.mpr h
  generalize xs.reverse = xs' at reversed ⊢
  generalize ys.reverse = ys' at reversed last
  cases reversed with
  | nil => exact nomatch last
  | cons head _ => exact ⟨_, rfl, Option.some.inj last ▸ head⟩

theorem exists_getElem?_of_forall₂ (h : List.Forall₂ R xs ys) {i : Nat} {b : β}
    (found : ys[i]? = some b) : ∃ a, xs[i]? = some a ∧ R a b := by
  induction h generalizing i with
  | nil => exact nomatch found
  | cons head _ ih =>
    cases i with
    | zero => exact ⟨_, rfl, Option.some.inj found ▸ head⟩
    | succ i => exact ih found

theorem forall₂_modify (h : List.Forall₂ R xs ys) (i : Nat) {f : α → α} {g : β → β}
    (keeps : ∀ a b, R a b → R (f a) (g b)) : List.Forall₂ R (xs.modify i f) (ys.modify i g) := by
  induction h generalizing i with
  | nil =>
    rw [List.modify_nil, List.modify_nil]
    exact .nil
  | cons head tail ih =>
    cases i with
    | zero => exact .cons (keeps _ _ head) tail
    | succ i => exact .cons head (ih i)

end Lists

/-! ## Reading the steps -/

/-- Different objects have different labels. -/
theorem objectLabel_inj {i j : ObjectId} : objectLabel i = objectLabel j ↔ i = j := by
  rw [objectLabel, objectLabel, String.append_right_inj, toString_inj]

/-- A variable as the steps tell it: whether it can be read, and the data logged for it last. -/
structure LoggedVariable where
  initialized : Bool
  data : Json

/-- What the steps of a trace tell: the scopes of the frames, the running one first, and the
objects.  It begins with the scope of the script. -/
structure Ledger where
  scopes : List (Table LoggedVariable) := [.empty]
  objects : List (Table Json) := []

/-- A field of the data of a step that holds a text. -/
def Step.textField? (s : Step) (key : String) : Option String :=
  (s.field? key).bind Step.stringOf?

namespace Ledger

/-- A new scope is on top. -/
def enter (l : Ledger) : Ledger :=
  { l with scopes := .empty :: l.scopes }

/-- The scope on top is gone. -/
def leave (l : Ledger) : Ledger :=
  { l with scopes := l.scopes.tail }

/-- The scope on top has a variable. -/
def bind (l : Ledger) (name : String) (logged : LoggedVariable) : Ledger :=
  { l with scopes := l.scopes.modifyHead fun top => top.put name logged }

/-- There is one more object. -/
def allocate (l : Ledger) : Ledger :=
  { l with objects := l.objects ++ [.empty] }

/-- The object with a label has a property. -/
def write (l : Ledger) (label key : String) (data : Json) : Ledger :=
  { l with
    objects := l.objects.mapIdx fun i object =>
      if objectLabel i = label then object.put key data else object }

/-- The ledger after a step. -/
def read (l : Ledger) (s : Step) : Ledger :=
  match s.kind with
  | .createExecutionContext => l.enter
  | .destroyExecutionContext => l.leave
  | .declareVariable =>
    match s.textField? "name", s.field? "initialized" with
    | some name, some (.bool initialized) => l.bind name ⟨initialized, .null⟩
    | _, _ => l
  | .referenceVariable =>
    match s.textField? "name" with
    | some name => l.bind name ⟨true, .str ("[Function: " ++ name ++ "]")⟩
    | none => l
  | .assignValue =>
    match s.field? "value", s.textField? "name", s.textField? "objectId",
      (s.textField? "key").or (s.textField? "property") with
    | some data, some name, _, _ => l.bind name ⟨true, data⟩
    | some data, none, some label, some key => l.write label key data
    | _, _, _, _ => l
  | .allocateHeapObject => if (s.field? "objectId").isSome then l.allocate else l
  | _ => l

/-- What a list of steps tells. -/
def ofSteps (steps : List Step) : Ledger :=
  steps.foldl read {}

/-- What the step of an event adds. -/
def note (l : Ledger) : Event → Ledger
  | .enterCall _ _ => l.enter
  | .leaveCall _ _ => l.leave
  | .hoistVariable kind name _ => l.bind name ⟨!kind.isLexical, .null⟩
  | .registerFunction name _ => l.bind name ⟨true, .str (Value.function name).text⟩
  | .initializeVariable _ name value | .assignVariable name value =>
    l.bind name ⟨true, value.snapshot⟩
  | .createObject _ => l.allocate
  | .initializeProperty object key value | .assignProperty object key value =>
    l.write (objectLabel object) key value.snapshot
  | _ => l

theorem read_event (l : Ledger) (id : String) (event : Event) :
    l.read ⟨id, event.kind, event.detail, some event.data⟩ = l.note event := by
  cases event <;> rfl

/-- A write reaches one object. -/
theorem write_objectLabel (l : Ledger) (id : ObjectId) (key : String) (data : Json) :
    l.write (objectLabel id) key data =
      { l with objects := l.objects.modify id fun object => object.put key data } := by
  have objects : (l.objects.mapIdx fun i object =>
      if objectLabel i = objectLabel id then object.put key data else object) =
        l.objects.modify id fun object => object.put key data := by
    refine List.ext_getElem? fun i => ?_
    rw [List.getElem?_mapIdx, List.getElem?_modify]
    simp only [objectLabel_inj, eq_comm]
    rfl
  rw [write, objects]

end Ledger

namespace Machine

/-- What the steps so far tell. -/
def ledger (m : Machine) : Ledger :=
  .ofSteps m.recorder.steps.toList

theorem ledger_record (m : Machine) (event : Event) :
    ((Effect.record event).apply m).ledger = m.ledger.note event := by
  have appended : ((Effect.record event).apply m).recorder.steps.toList = m.recorder.steps.toList ++
      [⟨Recorder.stepId m.recorder.steps.size, event.kind, event.detail, some event.data⟩] :=
    m.recorder.toList_steps_append _ _ _
  rw [ledger, Ledger.ofSteps, appended, List.foldl_append]
  exact Ledger.read_event _ _ event

theorem ledger_entered (m : Machine) (name : String) (id : FunctionId) :
    (m.entered name id).ledger = m.ledger.enter :=
  m.ledger_record (.enterCall name (m.stack.depth + 1))

end Machine

/-! ## Agreement with the state -/

/-- Data logged for a value: its snapshot, unless the value is an object, whose snapshot changes
with the heap. -/
def Value.LoggedAs (value : Value) (data : Json) : Prop :=
  value.objectId? = none → ∀ heap : Heap, data = heap.snapshot value

theorem Machine.loggedAs_shown (m : Machine) (value : Value) :
    value.LoggedAs (m.shown value).snapshot := by
  intro plain heap
  show m.heap.snapshot value = heap.snapshot value
  cases value with
  | object id => exact nomatch plain
  | _ => simp only [Heap.snapshot, Heap.unfold]

/-- A logged variable fits a binding. -/
structure LoggedVariable.Fits (logged : LoggedVariable) (binding : Binding) : Prop where
  initialized_eq : logged.initialized = binding.initialized
  loggedAs : (binding.value.getD .undefined).LoggedAs logged.data

namespace LoggedVariable.Fits

/-- A hoisted variable reads as `undefined` or cannot be read, and both are logged as `null`. -/
theorem hoisted (kind : DeclarationKind) : Fits ⟨!kind.isLexical, .null⟩ kind.hoisted where
  initialized_eq := by cases kind <;> rfl
  loggedAs _ heap := by
    have nothing : kind.hoisted.value.getD .undefined = .undefined := by cases kind <;> rfl
    rw [nothing]
    simp only [Heap.snapshot, Heap.unfold]

/-- A variable with a value is logged with data of the value. -/
theorem holding {value : Value} {data : Json} (h : value.LoggedAs data) :
    Fits ⟨true, data⟩ (.holding value) :=
  ⟨rfl, h⟩

end LoggedVariable.Fits

namespace Scopes

/-- The variables of a scope are those of a table of logged ones. -/
def Shows (s : Scopes) (logged : Table LoggedVariable) (id : ScopeId) : Prop :=
  ∃ scope, s.get? id = some scope ∧ logged.Agrees LoggedVariable.Fits scope.bindings

namespace Shows

variable {s : Scopes} {logged : Table LoggedVariable} {id : ScopeId}

theorem lt_size (h : s.Shows logged id) : id < s.size := by
  obtain ⟨scope, here, -⟩ := h
  exact lt_size_of_get? here

theorem put_self (h : s.Shows logged id) (name : String) {entry : LoggedVariable}
    {binding : Binding} (fits : entry.Fits binding) :
    (s.put id name binding).Shows (logged.put name entry) id := by
  obtain ⟨scope, here, agrees⟩ := h
  refine ⟨{ scope with bindings := scope.bindings.put name binding }, ?_, agrees.put name fits⟩
  rw [get?_put, if_pos rfl, here]
  rfl

theorem put_of_ne (h : s.Shows logged id) {other : ScopeId} (ne : other ≠ id) (name : String)
    (binding : Binding) : (s.put other name binding).Shows logged id := by
  obtain ⟨scope, here, agrees⟩ := h
  refine ⟨scope, ?_, agrees⟩
  rw [get?_put, if_neg ne, here]

theorem add (h : s.Shows logged id) (name : String) (outer : ScopeId) :
    (s.add name outer).Shows logged id := by
  have old := h.lt_size
  obtain ⟨scope, here, agrees⟩ := h
  refine ⟨scope, ?_, agrees⟩
  rw [get?_add, if_neg (Nat.ne_of_lt old), here]

end Shows

/-- A binding leaves all other scopes alone. -/
theorem forall₂_shows_put {s : Scopes} {told : List (Table LoggedVariable)} {ids : List ScopeId}
    (h : List.Forall₂ s.Shows told ids) {other : ScopeId} (ne : ∀ id ∈ ids, other ≠ id)
    (name : String) (binding : Binding) :
    List.Forall₂ (s.put other name binding).Shows told ids := by
  induction h with
  | nil => exact .nil
  | cons head _ ih =>
    obtain ⟨here, further⟩ := List.forall_mem_cons.mp ne
    exact .cons (head.put_of_ne here name binding) (ih further)

/-- A new scope shows no variables. -/
theorem shows_add (s : Scopes) (name : String) (outer : ScopeId) :
    (s.add name outer).Shows .empty s.size := by
  refine ⟨{ name, outer := some outer }, ?_, .empty⟩
  rw [get?_add, if_pos rfl]

end Scopes

namespace Machine

/-- The scope of the script is the bottom scope of the ledger. -/
def LoggedGlobally (m : Machine) : Prop :=
  ∃ bottom, m.ledger.scopes.getLast? = some bottom ∧ m.scopes.Shows bottom globalScope

/-- The scopes of the frames on the stack and the objects of the heap are those of the ledger. -/
structure Logged (m : Machine) : Prop where
  linked : m.Linked
  scopes : List.Forall₂ m.scopes.Shows m.ledger.scopes (m.stack.frames.map Frame.scope)
  objects : List.Forall₂ (Table.Agrees fun data value => value.LoggedAs data)
    m.ledger.objects m.heap.objects.toList

theorem logged_initial (config : Config) : (Machine.initial config).Logged where
  linked := linked_initial config
  scopes := .cons ⟨_, rfl, .empty⟩ .nil
  objects := .nil

namespace Logged

variable {m : Machine}

theorem globally (h : m.Logged) : m.LoggedGlobally :=
  exists_getLast?_of_forall₂ h.scopes (h.linked.walk.getLast?_eq h.linked.wellLinked)

/-- A step that adds nothing. -/
theorem record_silent (h : m.Logged) {event : Event} (silent : ∀ l : Ledger, l.note event = l) :
    ((Effect.record event).apply m).Logged where
  linked := h.linked.apply _
  scopes := by
    rw [ledger_record, silent]
    exact h.scopes
  objects := by
    rw [ledger_record, silent]
    exact h.objects

theorem storeFunction (h : m.Logged) (name : String) (id : FunctionId) :
    ((Effect.storeFunction name id).apply m).Logged :=
  ⟨h.linked.apply _, h.scopes, h.objects⟩

/-- A binding and the step that tells of it.  The scopes of the other frames are not the running
one, since their indices are smaller. -/
theorem bind (h : m.Logged) {event : Event} {name : String} {entry : LoggedVariable}
    (tells : ∀ l : Ledger, l.note event = l.bind name entry) {binding : Binding}
    (fits : entry.Fits binding) :
    ((Effect.bind name binding).apply ((Effect.record event).apply m)).Logged where
  linked := (h.linked.apply _).apply _
  scopes := by
    have descending := h.linked.walk.pairwise_gt h.linked.wellLinked
    have head := h.linked.walk.head?_eq
    have scopes := h.scopes
    show List.Forall₂ (m.scopes.put m.currentScope name binding).Shows
      ((Effect.record event).apply m).ledger.scopes (m.stack.frames.map Frame.scope)
    rw [ledger_record, tells]
    show List.Forall₂ _ (m.ledger.scopes.modifyHead fun top => top.put name entry) _
    generalize m.ledger.scopes = told at scopes ⊢
    generalize m.stack.frames.map Frame.scope = ids at scopes head descending ⊢
    cases scopes with
    | nil => exact .nil
    | @cons top id told ids top_shown rest =>
      obtain rfl : id = m.currentScope := Option.some.inj head
      refine .cons (top_shown.put_self name fits) ?_
      have smaller := (List.pairwise_cons.mp descending).1
      exact Scopes.forall₂_shows_put rest (fun id hid => Nat.ne_of_gt (smaller id hid)) name binding
  objects := by
    show List.Forall₂ _ ((Effect.record event).apply m).ledger.objects m.heap.objects.toList
    rw [ledger_record, tells]
    exact h.objects

/-- A property and the step that tells of it, in either order. -/
theorem setProperty (h : m.Logged) {event : Event} {id : ObjectId} {key : String} {data : Json}
    (tells : ∀ l : Ledger, l.note event = l.write (objectLabel id) key data) {value : Value}
    (logged : value.LoggedAs data) :
    ((Effect.setProperty id key value).apply ((Effect.record event).apply m)).Logged where
  linked := (h.linked.apply _).apply _
  scopes := by
    show List.Forall₂ _ ((Effect.record event).apply m).ledger.scopes _
    rw [ledger_record, tells]
    exact h.scopes
  objects := by
    show List.Forall₂ _ ((Effect.record event).apply m).ledger.objects
      (m.heap.objects.modify id fun object => object.put key value).toList
    rw [ledger_record, tells, Ledger.write_objectLabel, Array.toList_modify]
    exact forall₂_modify h.objects id fun _ _ agrees => agrees.put key logged

/-- A new object and the step that tells of it. -/
theorem allocate (h : m.Logged) (id : ObjectId) :
    ((Effect.record (.createObject id)).apply (Effect.allocate.apply m)).Logged where
  linked := (h.linked.apply _).apply _
  scopes := by
    rw [ledger_record]
    exact h.scopes
  objects := by
    rw [ledger_record]
    show List.Forall₂ _ (m.ledger.objects ++ [.empty]) (m.heap.objects.push .empty).toList
    rw [Array.toList_push]
    exact List.rel_append h.objects (.cons .empty .nil)

/-- The step that tells of a frame, and the frame. -/
theorem entered (h : m.Logged) (name : String) (id : FunctionId) :
    (m.entered name id).Logged where
  linked := (h.linked.apply _).apply _
  scopes := by
    rw [ledger_entered]
    refine .cons (m.scopes.shows_add name m.currentScope) ?_
    exact h.scopes.imp fun _ _ shown => shown.add name m.currentScope
  objects := by
    rw [ledger_entered]
    exact h.objects

/-- A frame that is taken off, and the step that says so. -/
theorem leave (h : m.Logged) {frame : Frame} {stack : Stack} (top : m.stack = stack.push frame)
    (ne : stack.frames ≠ []) (name : String) (depth : Nat) :
    ((Effect.record (.leaveCall name depth)).apply (Effect.leave.apply m)).Logged where
  linked := (h.linked.apply _).apply _
  scopes := by
    have scopes := h.scopes
    rw [ledger_record]
    show List.Forall₂ m.scopes.Shows m.ledger.scopes.tail (m.stack.pop.frames.map Frame.scope)
    rw [top, Stack.pop_push frame ne]
    rw [top] at scopes
    change List.Forall₂ _ _ (frame.scope :: stack.frames.map Frame.scope) at scopes
    generalize m.ledger.scopes = told at scopes ⊢
    cases scopes with
    | cons _ rest => exact rest
  objects := by
    rw [ledger_record]
    exact h.objects

end Logged

end Machine

/-! ## Executions that keep the agreement -/

/-- What holds at the end of an execution that starts in agreement: after a result all agrees, after
a fault the scope of the script does. -/
def LoggedOutcome {α : Type} : Except Fault α × Machine → Prop
  | (.ok _, m) => m.Logged
  | (.error _, m) => m.LoggedGlobally

theorem LoggedOutcome.globally {α : Type} {outcome : Except Fault α × Machine}
    (h : LoggedOutcome outcome) : outcome.2.LoggedGlobally := by
  match outcome, h with
  | (.ok _, _), h => exact Machine.Logged.globally h
  | (.error _, _), h => exact h

/-- An execution that keeps the agreement. -/
def Exec.KeepsLog {α : Type} (x : Exec α) : Prop :=
  ∀ m : Machine, m.Logged → LoggedOutcome (x.run m)

/-- A step of an action that is half done: without room for the step, the fault leaves the other
half undone. -/
theorem LoggedOutcome.record_bind {α : Type} {event : Event} {next : Unit → Exec α} {m : Machine}
    (stuck : m.LoggedGlobally)
    (go : LoggedOutcome ((next ()).run ((Effect.record event).apply m))) :
    LoggedOutcome ((record event >>= next).run m) := by
  cases room : m.recorder.reached? with
  | some limit =>
    rw [Exec.run_bind_of_error (run_record_of_reached room)]
    exact stuck
  | none =>
    rw [Exec.run_bind_of_ok (run_record_of_room room)]
    exact go

namespace Exec.KeepsLog

variable {α β : Type}

theorem done (result : α) : (Exec.done result).KeepsLog :=
  fun _ logged => logged

theorem raise (fault : Fault) : (Exec.raise fault : Exec α).KeepsLog :=
  fun _ logged => logged.globally

theorem look {next : Machine → Exec α} (each : ∀ m, (next m).KeepsLog) :
    (Exec.look next).KeepsLog :=
  fun m logged => each m m logged

theorem asks (f : Machine → α) : (Exec.asks f).KeepsLog :=
  .look fun _ => .done _

theorem asksOrRaises (f : Machine → Except Fault α) : (Exec.asksOrRaises f).KeepsLog := by
  refine .look fun m => ?_
  cases f m with
  | ok result => exact .done result
  | error fault => exact .raise fault

theorem bind {x : Exec α} {next : α → Exec β} (first : x.KeepsLog)
    (each : ∀ a, (next a).KeepsLog) : (x >>= next).KeepsLog := by
  intro m logged
  have inside := first m logged
  rcases outcome : x.run m with ⟨fault | a, m'⟩
  · rw [outcome] at inside
    rw [run_bind_of_error outcome]
    exact inside
  · rw [outcome] at inside
    rw [run_bind_of_ok outcome]
    exact each a m' inside

/-- A step that adds nothing to the ledger. -/
theorem record {event : Event} (silent : ∀ l : Ledger, l.note event = l) :
    (ScriptTrace.record event).KeepsLog := by
  intro m logged
  cases room : m.recorder.reached? with
  | some limit =>
    rw [run_record_of_reached room]
    exact logged.globally
  | none =>
    rw [run_record_of_room room]
    exact logged.record_silent silent

/-- A body in a frame of its own. -/
theorem inFrame {allowed : Effect → Prop} (name : String) (id : FunctionId)
    {body : ScopeId → ScopeId → Exec Unit}
    (orderly : ∀ scope outer, (body scope outer).Orderly allowed)
    (each : ∀ scope outer, (body scope outer).KeepsLog) :
    (ScriptTrace.inFrame name id body).KeepsLog := by
  intro m logged
  have ne := logged.linked.frames_ne_nil
  have inside := each m.scopes.size m.currentScope _ (logged.entered name id)
  have balanced := (orderly m.scopes.size m.currentScope).stack_run
    (m.frames_entered_ne_nil name id)
  have frame := frameRun_inFrame name id body m
  generalize (ScriptTrace.inFrame name id body).run m = outcome at frame ⊢
  cases frame with
  | refused _ => exact logged.globally
  | failed ended =>
    rw [ended] at inside
    exact inside
  | untold ended _ =>
    rw [ended] at inside
    exact inside.globally
  | finished ended =>
    rw [ended] at inside balanced
    exact Machine.Logged.leave inside balanced ne name _

end Exec.KeepsLog

/-! ## The interpreter -/

mutual

theorem keepsLog_evaluate : ∀ e : Expression, (evaluate e).KeepsLog
  | .literal _ value => by
    rw [evaluate]
    exact .done _
  | .identifier name => by
    rw [evaluate]
    exact .asksOrRaises _
  | .object _ properties => by
    rw [evaluate]
    intro m logged
    refine LoggedOutcome.record_bind (m := Effect.allocate.apply m) logged.globally ?_
    exact ((keepsLog_fillObject _ properties).bind fun _ => .done _) _ (logged.allocate _)
  | .member _ base property => by
    rw [evaluate]
    refine (keepsLog_evaluate base).bind fun object => ?_
    exact .bind (.record fun _ => rfl) fun _ => .asks _
  | .array _ _ | .assignVariable _ _ _ | .assignMember _ _ _ _ _ | .call _ _ _ | .function _ _
  | .unary _ _ _ | .binary _ _ _ _ => by
    simp only [evaluate]
    exact .done _

theorem keepsLog_fillObject (id : ObjectId) :
    ∀ properties : List (Property Expression), (fillObject id properties).KeepsLog
  | [] => by
    rw [fillObject]
    exact .done _
  | ⟨_, .name key, value⟩ :: rest => by
    rw [fillObject]
    refine (keepsLog_evaluate value).bind fun value m logged => ?_
    let written := (Effect.setProperty id key value).apply m
    refine LoggedOutcome.record_bind (m := written) logged.globally ?_
    exact keepsLog_fillObject id rest _
      (logged.setProperty (fun _ => rfl) (written.loggedAs_shown value))
  | ⟨_, .str _, _⟩ :: rest | ⟨_, .num _, _⟩ :: rest => by
    simp only [fillObject]
    exact keepsLog_fillObject id rest

end

theorem keepsLog_hoistFunction (name : String) (id : FunctionId) :
    (hoistFunction name id).KeepsLog := by
  rw [hoistFunction]
  refine .bind (.record fun _ => rfl) fun _ m logged => ?_
  have stored := logged.storeFunction name id
  refine LoggedOutcome.record_bind stored.globally ?_
  refine stored.bind (fun _ => rfl) (.holding fun _ heap => ?_)
  simp only [Heap.snapshot, Heap.unfold]

theorem keepsLog_hoistVariables (kind : DeclarationKind) (declarators : List Declarator) :
    (hoistVariables kind declarators).KeepsLog := by
  induction declarators with
  | nil =>
    rw [hoistVariables]
    exact .done _
  | cons declarator rest ih =>
    rw [hoistVariables]
    intro m logged
    refine LoggedOutcome.record_bind logged.globally ?_
    exact ih _ (logged.bind (fun _ => rfl) (.hoisted kind))

theorem keepsLog_hoist (mode : HoistMode) (statements : List Statement) :
    (hoist mode statements).KeepsLog := by
  induction statements with
  | nil =>
    rw [hoist]
    exact .done _
  | cons statement rest ih =>
    cases statement with
    | functionDeclaration span name id =>
      rw [hoist]
      split
      · exact (keepsLog_hoistFunction name.name id).bind fun _ => ih
      · exact ih
    | «variables» declaration =>
      rw [hoist]
      exact (keepsLog_hoistVariables _ _).bind fun _ => ih
    | _ =>
      simp only [hoist]
      exact ih

theorem keepsLog_declare (kind : DeclarationKind) (declarators : List Declarator) :
    (declare kind declarators).KeepsLog := by
  induction declarators with
  | nil =>
    rw [declare]
    exact .done _
  | cons declarator rest ih =>
    obtain ⟨_, name, init⟩ := declarator
    cases init with
    | none =>
      rw [declare]
      exact ih
    | some init =>
      rw [declare]
      refine (keepsLog_evaluate init).bind fun value m logged => ?_
      refine LoggedOutcome.record_bind logged.globally ?_
      exact ih _ (logged.bind (fun _ => rfl) (.holding (m.loggedAs_shown value)))

theorem keepsLog_assignVariable (name : String) (right : Expression) :
    (assignVariable name right).KeepsLog := by
  rw [assignVariable]
  refine (keepsLog_evaluate right).bind fun value m logged => ?_
  refine LoggedOutcome.record_bind logged.globally ?_
  exact logged.bind (fun _ => rfl) (.holding (m.loggedAs_shown value))

theorem keepsLog_assignProperty (object : Expression) (property : String) (right : Expression) :
    (assignProperty object property right).KeepsLog := by
  rw [assignProperty]
  refine (keepsLog_evaluate right).bind fun value => ?_
  refine (keepsLog_evaluate object).bind fun base => ?_
  split
  · intro m logged
    refine LoggedOutcome.record_bind logged.globally ?_
    exact logged.setProperty (fun _ => rfl) (m.loggedAs_shown value)
  · exact .raise _

theorem keepsLog_callMethod (object : Expression) (method : String)
    (arguments : List Expression) : (callMethod object method arguments).KeepsLog := by
  rw [callMethod]
  refine .bind (.record fun _ => rfl) fun _ => ?_
  refine .bind ?_ fun value => ?_
  · cases arguments with
    | nil => exact .done _
    | cons argument _ => exact keepsLog_evaluate argument
  · exact .bind (.asks _) fun shown => .record fun _ => rfl

theorem keepsLog_execute {call : String → Exec Unit} (each : ∀ name, (call name).KeepsLog)
    (s : Statement) : (execute call s).KeepsLog := by
  unfold execute
  split
  · exact keepsLog_declare _ _
  · unfold executeExpression
    split
    · exact keepsLog_assignVariable _ _
    · exact keepsLog_assignProperty _ _ _
    · exact keepsLog_callMethod _ _ _
    · exact each _
    · exact .done _
  · exact .done _

theorem keepsLog_executeAll {call : String → Exec Unit} (each : ∀ name, (call name).KeepsLog)
    (statements : List Statement) : (executeAll call statements).KeepsLog := by
  induction statements with
  | nil =>
    rw [executeAll]
    exact .done _
  | cons s rest ih =>
    rw [executeAll]
    exact (keepsLog_execute each s).bind fun _ => ih

theorem keepsLog_runBody (program : Program) {call : String → Exec Unit}
    (each : ∀ name, (call name).KeepsLog) (name : String) (id : FunctionId)
    (scope outer : ScopeId) : (runBody program call name id scope outer).KeepsLog := by
  rw [runBody]
  refine .bind (.record fun _ => rfl) fun _ => ?_
  split
  · exact .raise _
  · exact (keepsLog_hoist _ _).bind fun _ => keepsLog_executeAll each _

/-- The induction is on the allowance, which the calls inside the body have one less of. -/
theorem keepsLog_callFunction (program : Program) (limit allowance : Nat) (name : String) :
    (callFunction program limit allowance name).KeepsLog := by
  induction allowance generalizing name with
  | zero =>
    rw [callFunction]
    refine .bind (.record fun _ => rfl) fun _ => ?_
    exact .bind (.asksOrRaises _) fun id => .raise _
  | succ allowance ih =>
    rw [callFunction]
    refine .bind (.record fun _ => rfl) fun _ => ?_
    refine .bind (.asksOrRaises _) fun id => ?_
    exact .inFrame name id
      (orderly_runBody program (orderly_callFunction program limit allowance) name id)
      (keepsLog_runBody program ih name id)

theorem keepsLog_executeStatements (program : Program) (limit : Nat)
    (statements : List Statement) : (executeStatements program limit statements).KeepsLog := by
  induction statements with
  | nil =>
    rw [executeStatements]
    exact .done _
  | cons s rest ih =>
    rw [executeStatements]
    refine .bind (.look fun m => ?_) fun _ => ih
    exact keepsLog_execute (keepsLog_callFunction program limit _) s

/-- **A whole run keeps the agreement.** -/
theorem keepsLog_runScript (config : Config) (program : Program) :
    (runScript config program).KeepsLog := by
  rw [runScript]
  refine .bind (.record fun _ => rfl) fun _ => ?_
  exact (keepsLog_hoist _ _).bind fun _ => keepsLog_executeStatements _ _ _

/-! ## Traces -/

/-- **The trace is a faithful log.**  The steps of a run that do not report a fault are read into a
ledger.  Whether or not a fault stops the run, the bottom scope of the ledger has the variables of
the script in their order, each as initialized as it is.  If no fault stops it, the objects of the
ledger are those of the heap, with the same properties in the same order.  A variable of the script
or a property that holds no object in the end was logged last with the snapshot of what it holds. -/
theorem runProgram_is_faithful_log (config : Config) (program : Program) :
    let t := runProgram config program
    let final := ((runScript config program).run (.initial config)).2
    let ledger := Ledger.ofSteps t.ongoing
    (∃ (bottom : Table LoggedVariable) (script : Scope),
      ledger.scopes.getLast? = some bottom ∧ final.scopes.get? globalScope = some script ∧
        (bottom.entries.map fun e => (e.1, e.2.initialized)) =
          (script.bindings.entries.map fun e => (e.1, e.2.initialized)) ∧
        ∀ name binding, script.bindings.get? name = some binding →
          (binding.value.getD .undefined).objectId? = none →
            ∃ logged, bottom.get? name = some logged ∧
              logged.data = final.heap.snapshot (binding.value.getD .undefined)) ∧
      (t.fault = none →
        ledger.objects.map Table.keys = final.heap.objects.toList.map Table.keys ∧
          ∀ id object, final.heap.object? id = some object →
            ∀ key value, object.get? key = some value → value.objectId? = none →
              ∃ logged, ledger.objects[id]? = some logged ∧
                logged.get? key = some (final.heap.snapshot value)) := by
  intro t final ledger
  have read : ledger = final.ledger := congrArg Ledger.ofSteps (ongoing_runProgram config program)
  have outcome := keepsLog_runScript config program _ (Machine.logged_initial config)
  constructor
  · obtain ⟨bottom, last, script, here, agrees⟩ := outcome.globally
    refine ⟨bottom, script, read ▸ last, here, ?_, ?_⟩
    · exact agrees.map_entries_eq fun _ _ fits => fits.initialized_eq
    · intro name binding bound plain
      obtain ⟨logged, found, fits⟩ := agrees.exists_get? bound
      exact ⟨logged, found, fits.loggedAs plain final.heap⟩
  · intro unstopped
    have all : final.Logged := by
      rcases ended : (runScript config program).run (.initial config) with ⟨fault | _, m⟩
      · have stopped : t.fault = some fault := by rw [show t = _ from runProgram_of_fault ended]
        exact nomatch unstopped.symm.trans stopped
      · rw [ended] at outcome
        rwa [show final = m from congrArg Prod.snd ended]
    rw [read]
    refine ⟨?_, ?_⟩
    · have keys := all.objects.imp fun _ _ agrees => agrees.keys_eq
      rw [← List.forall₂_map_right_iff, ← List.forall₂_map_left_iff, List.forall₂_eq_eq_eq] at keys
      exact keys
    · intro id object here key value held plain
      obtain ⟨logged, found, agrees⟩ := exists_getElem?_of_forall₂ all.objects
        (Array.getElem?_toList.trans here)
      obtain ⟨data, told, loggedAs⟩ := agrees.exists_get? held
      exact ⟨logged, found, told.trans (congrArg some (loggedAs plain final.heap))⟩

end ScriptTrace
