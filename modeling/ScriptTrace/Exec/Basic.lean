import ScriptTrace.Machine.State

/-!
# Executions

An execution is a tree: it ends with a result or with a fault, it looks at the state and goes on as
the state says, or it changes the state by one effect and goes on.  Since the tree shows every
effect, the states that a run passes through are a function of the tree, and what holds of every
effect holds of every run.

A fault is a leaf of the tree like a result, so catching one is a recursion on the tree.

* `Exec`: the trees, which form a monad.
* `Exec.run`: the result and the last state.
* `Exec.states`: all states on the way.
* `Exec.attempt`: going on after a result or a fault.
* `record`: the step of an event, or the fault that there may be no more steps.
-/

namespace ScriptTrace

/-- An execution with a result. -/
inductive Exec (α : Type) where
  /-- The execution is over. -/
  | done (result : α)
  /-- The execution stops with a fault. -/
  | raise (fault : Fault)
  /-- The execution looks at the state. -/
  | look (next : Machine → Exec α)
  /-- The execution changes the state. -/
  | act (effect : Effect) (next : Exec α)

namespace Exec

variable {α β : Type}

/-- The result or the fault of an execution, and the last state. -/
def run : Exec α → Machine → Except Fault α × Machine
  | .done result, m => (.ok result, m)
  | .raise fault, m => (.error fault, m)
  | .look next, m => (next m).run m
  | .act effect next, m => next.run (effect.apply m)

/-- The states that an execution passes through, the first one included. -/
def states : Exec α → Machine → List Machine
  | .done _, m | .raise _, m => [m]
  | .look next, m => (next m).states m
  | .act effect next, m => m :: next.states (effect.apply m)

/-- Goes on after a result or a fault. -/
def attempt (x : Exec α) (next : Except Fault α → Exec β) : Exec β :=
  match x with
  | .done result => next (.ok result)
  | .raise fault => next (.error fault)
  | .look rest => .look fun m => (rest m).attempt next
  | .act effect rest => .act effect (rest.attempt next)

/-- Goes on after a result. -/
def bind (x : Exec α) (next : α → Exec β) : Exec β :=
  match x with
  | .done result => next result
  | .raise fault => .raise fault
  | .look rest => .look fun m => (rest m).bind next
  | .act effect rest => .act effect (rest.bind next)

instance : Monad Exec where
  pure := .done
  bind := .bind

theorem bind_done (x : Exec α) : x.bind .done = x := by
  induction x with
  | done _ => rfl
  | raise _ => rfl
  | look rest ih => exact congrArg Exec.look (funext ih)
  | act effect rest ih => exact congrArg (Exec.act effect) ih

theorem bind_bind {γ : Type} (x : Exec α) (f : α → Exec β) (g : β → Exec γ) :
    (x.bind f).bind g = x.bind fun a => (f a).bind g := by
  induction x with
  | done _ => rfl
  | raise _ => rfl
  | look rest ih => exact congrArg Exec.look (funext ih)
  | act effect rest ih => exact congrArg (Exec.act effect) ih

instance : LawfulMonad Exec :=
  LawfulMonad.mk' Exec bind_done (fun _ _ => rfl) bind_bind

/-- Going on after a result is going on after a result or a fault, where a fault stays what it
is. -/
theorem bind_eq_attempt (x : Exec α) (next : α → Exec β) :
    x.bind next = x.attempt fun
      | .ok result => next result
      | .error fault => .raise fault := by
  induction x with
  | done _ => rfl
  | raise _ => rfl
  | look rest ih => exact congrArg Exec.look (funext ih)
  | act effect rest ih => exact congrArg (Exec.act effect) ih

/-- A run of two executions is a run of the second from the last state of the first. -/
theorem run_attempt (x : Exec α) (next : Except Fault α → Exec β) (m : Machine) :
    (x.attempt next).run m = (next (x.run m).1).run (x.run m).2 := by
  induction x generalizing m with
  | done _ => rfl
  | raise _ => rfl
  | look rest ih => exact ih m m
  | act effect rest ih => exact ih (effect.apply m)

/-- After a result the second execution goes on. -/
theorem run_bind_of_ok {x : Exec α} {m m' : Machine} {a : α} (h : x.run m = (.ok a, m'))
    (next : α → Exec β) : (x >>= next).run m = (next a).run m' := by
  show (x.bind next).run m = _
  rw [bind_eq_attempt, run_attempt, h]

/-- After a fault the second execution does not begin. -/
theorem run_bind_of_error {x : Exec α} {m m' : Machine} {fault : Fault}
    (h : x.run m = (.error fault, m')) (next : α → Exec β) :
    (x >>= next).run m = (.error fault, m') := by
  show (x.bind next).run m = _
  rw [bind_eq_attempt, run_attempt, h]
  rfl

/-- Every state of a run of two executions is a state of the first or of the second. -/
theorem mem_states_attempt {x : Exec α} {next : Except Fault α → Exec β} {m s : Machine}
    (h : s ∈ (x.attempt next).states m) :
    s ∈ x.states m ∨ s ∈ (next (x.run m).1).states (x.run m).2 := by
  induction x generalizing m with
  | done _ => exact Or.inr h
  | raise _ => exact Or.inr h
  | look rest ih => exact ih m h
  | act effect rest ih =>
    rcases List.mem_cons.mp h with rfl | h
    · exact Or.inl List.mem_cons_self
    · rcases ih h with h | h
      · exact Or.inl (List.mem_cons_of_mem _ h)
      · exact Or.inr h

/-- The last state of a run is one of its states. -/
theorem run_mem_states (x : Exec α) (m : Machine) : (x.run m).2 ∈ x.states m := by
  induction x generalizing m with
  | done _ => exact List.mem_singleton_self m
  | raise _ => exact List.mem_singleton_self m
  | look rest ih => exact ih m m
  | act effect rest ih => exact List.mem_cons_of_mem _ (ih (effect.apply m))

/-- What every effect keeps holds in every state of a run that starts with it. -/
theorem forall_states_of_forall_effect {P : Machine → Prop}
    (keeps : ∀ (effect : Effect) (m : Machine), P m → P (effect.apply m)) (x : Exec α)
    {m : Machine} (start : P m) : ∀ s ∈ x.states m, P s := by
  induction x generalizing m with
  | done _ =>
    intro s hs
    rwa [List.mem_singleton.mp hs]
  | raise _ =>
    intro s hs
    rwa [List.mem_singleton.mp hs]
  | look rest ih => exact ih m start
  | act effect rest ih =>
    intro s hs
    rcases List.mem_cons.mp hs with rfl | hs
    · exact start
    · exact ih (keeps effect m start) s hs

/-- What every effect keeps holds at the end of a run that starts with it. -/
theorem run_of_forall_effect {P : Machine → Prop}
    (keeps : ∀ (effect : Effect) (m : Machine), P m → P (effect.apply m)) (x : Exec α)
    {m : Machine} (start : P m) : P (x.run m).2 :=
  forall_states_of_forall_effect keeps x start _ (x.run_mem_states m)

/-- A part of the state. -/
def asks (f : Machine → α) : Exec α :=
  .look fun m => .done (f m)

/-- A result or a fault that the state decides. -/
def asksOrRaises (f : Machine → Except Fault α) : Exec α :=
  .look fun m =>
    match f m with
    | .ok result => .done result
    | .error fault => .raise fault

/-- One effect. -/
def perform (effect : Effect) : Exec Unit :=
  .act effect (.done ())

theorem run_asks_bind (f : Machine → α) (next : α → Exec β) (m : Machine) :
    (asks f >>= next).run m = (next (f m)).run m := rfl

/-- A look leaves the state alone, with a result or with a fault. -/
theorem run_asksOrRaises (f : Machine → Except Fault α) (m : Machine) :
    (asksOrRaises f).run m = (f m, m) := by
  rw [asksOrRaises, run]
  cases f m <;> rfl

theorem run_perform_bind (effect : Effect) (next : Unit → Exec β) (m : Machine) :
    (perform effect >>= next).run m = (next ()).run (effect.apply m) := rfl

end Exec

/-- Records the step of an event, if there may be another step. -/
def record (event : Event) : Exec Unit :=
  .look fun m =>
    match m.recorder.reached? with
    | some limit => .raise (.stepLimit limit)
    | none => .perform (.record event)

theorem run_record_of_room {event : Event} {m : Machine} (h : m.recorder.reached? = none) :
    (record event).run m = (.ok (), (Effect.record event).apply m) := by
  rw [record, Exec.run, h]
  rfl

theorem run_record_of_reached {event : Event} {m : Machine} {limit : Nat}
    (h : m.recorder.reached? = some limit) :
    (record event).run m = (.error (.stepLimit limit), m) := by
  rw [record, Exec.run, h]
  rfl

end ScriptTrace
