import Mathlib.Data.List.Perm.Subperm
import ScriptTrace.Proofs.StackBalance

/-!
# Every run ends, and its stack stays within the bound

Calls are resolved while a script runs, through names whose values change.  So nothing in a program
says how calls nest, and a program need not come from a source: its functions may be any, referred
to by any index.  What makes a run end is the bound on the call stack alone.

## Runs without an allowance

The interpreter counts the allowance of a call down, and so it ends by construction.  Whether a run
ends is a question about the rules without that count, where a call looks at the stack and goes on
if there is room for a frame.  `Task.Yields` is the relation that these rules define: a derivation
is a finite tree, so a run that goes on for ever yields nothing.  The rules yield at most one
outcome (`Task.Yields.unique`), and the outcome of the interpreter is one that they yield
(`yields_callFunction`).  The induction is on the room that the stack leaves.  Inside a body it
follows the statements: every statement leaves the stack as it found it, so the next one has the
same room.

Two more loops of a run have a count in the interpreter.  The search for a name goes outwards along
links to smaller indices, so it ends (`Scopes.WellLinked.resolves_resolve?`).  The data of a value
open every object at most once on the way down, so there are data without the count, and they are
those of the snapshot (`Heap.unfolds_snapshot`).

## The height of the stack

An execution that starts with an allowance puts at most that many frames on the stack
(`risesBy_callFunction`), and the allowance is what the bound leaves.

* `Task.Yields`: how statements and calls end.
* `Heap.Unfolds`: the data of a value.
* `Exec.RisesBy`: how high the stack grows.
* `runProgram_terminates`: all of this for every program and all settings.
-/

namespace ScriptTrace

/-! ## The rules of a run -/

/-- The steps of a call up to the function that is called. -/
def announceCall (name : String) : Exec FunctionId := do
  record (.prepareCall name)
  .asksOrRaises fun m => m.callee name

/-- The steps of a body before its statements. -/
def openBody (program : Program) (name : String) (id : FunctionId) (scope outer : ScopeId) :
    Exec (List Statement) := do
  record (.createScope name scope outer)
  match program.function? id with
  | none => .raise (.notAFunction name)
  | some definition =>
    hoist .functionBody definition.body
    return definition.body

/-- The steps of a script before its statements. -/
def openScript (config : Config) (program : Program) : Exec (List Statement) := do
  record (.enterScript config.globalFrameName)
  hoist .script program.body
  return program.body

/-- Something to execute. -/
inductive Task where
  | statement (s : Statement)
  | sequence (statements : List Statement)
  /-- The statements that an opening gives. -/
  | opened (opening : Exec (List Statement))
  | call (name : String)

/-- How a task ends, from a state.  A call goes on whenever the stack has room for a frame, and
nothing counts how often that happens. -/
inductive Task.Yields (program : Program) (limit : Nat) :
    Task → Machine → Except Fault Unit × Machine → Prop
  /-- A statement that calls no name. -/
  | quiet {s : Statement} {m : Machine} (calls : s.calledName? = none) :
      Yields program limit (.statement s) m ((execute (fun _ => .done ()) s).run m)
  /-- A statement that calls a name. -/
  | calling {s : Statement} {name : String} {m : Machine} {outcome : Except Fault Unit × Machine}
      (calls : s.calledName? = some name) (call : Yields program limit (.call name) m outcome) :
      Yields program limit (.statement s) m outcome
  /-- There are no statements. -/
  | nil {m : Machine} : Yields program limit (.sequence []) m (.ok (), m)
  /-- The first statement ends with a fault. -/
  | stop {s : Statement} {rest : List Statement} {m m' : Machine} {fault : Fault}
      (first : Yields program limit (.statement s) m (.error fault, m')) :
      Yields program limit (.sequence (s :: rest)) m (.error fault, m')
  /-- The first statement ends with a result. -/
  | next {s : Statement} {rest : List Statement} {m m' : Machine}
      {outcome : Except Fault Unit × Machine}
      (first : Yields program limit (.statement s) m (.ok (), m'))
      (further : Yields program limit (.sequence rest) m' outcome) :
      Yields program limit (.sequence (s :: rest)) m outcome
  /-- The opening ends with a fault. -/
  | closed {opening : Exec (List Statement)} {m m' : Machine} {fault : Fault}
      (failed : opening.run m = (.error fault, m')) :
      Yields program limit (.opened opening) m (.error fault, m')
  /-- The opening gives statements. -/
  | opened {opening : Exec (List Statement)} {statements : List Statement} {m m' : Machine}
      {outcome : Except Fault Unit × Machine} (gave : opening.run m = (.ok statements, m'))
      (inside : Yields program limit (.sequence statements) m' outcome) :
      Yields program limit (.opened opening) m outcome
  /-- There is no function to call, or no room for the step that tells of the call. -/
  | unannounced {name : String} {m m' : Machine} {fault : Fault}
      (failed : (announceCall name).run m = (.error fault, m')) :
      Yields program limit (.call name) m (.error fault, m')
  /-- The stack is full. -/
  | overflow {name : String} {id : FunctionId} {m m' : Machine}
      (announced : (announceCall name).run m = (.ok id, m')) (full : limit ≤ m'.stack.depth) :
      Yields program limit (.call name) m (.error (.stackOverflow limit), m')
  /-- There is no room for the step that tells of the frame. -/
  | refused {name : String} {id : FunctionId} {m m' : Machine} {steps : Nat}
      (announced : (announceCall name).run m = (.ok id, m')) (room : m'.stack.depth < limit)
      (full : m'.recorder.reached? = some steps) :
      Yields program limit (.call name) m (.error (.stepLimit steps), m')
  /-- The body runs in a frame of its own, which is left however the body ends. -/
  | entered {name : String} {id : FunctionId} {m m' : Machine}
      {outcome : Except Fault Unit × Machine}
      (announced : (announceCall name).run m = (.ok id, m')) (room : m'.stack.depth < limit)
      (free : m'.recorder.reached? = none)
      (inside : Yields program limit
        (.opened (openBody program name id m'.scopes.size m'.currentScope)) (m'.entered name id)
        outcome) :
      Yields program limit (.call name) m ((leaveFrame name outcome.1).run outcome.2)

namespace Task.Yields

variable {program : Program} {limit : Nat}

/-- **The rules yield at most one outcome.** -/
theorem unique {task : Task} {m : Machine} {first second : Except Fault Unit × Machine}
    (h : task.Yields program limit m first) (h' : task.Yields program limit m second) :
    first = second := by
  induction h generalizing second with
  | quiet calls =>
    cases h' with
    | quiet _ => rfl
    | calling calls' _ => simp [calls] at calls'
  | calling calls _ ih =>
    cases h' with
    | quiet calls' => simp [calls] at calls'
    | calling calls' call =>
      obtain rfl := Option.some.inj (calls.symm.trans calls')
      exact ih call
  | nil =>
    cases h'
    rfl
  | stop _ ih =>
    cases h' with
    | stop first' => exact ih first'
    | next first' _ => exact nomatch ih first'
  | next _ _ ihFirst ihFurther =>
    cases h' with
    | stop first' => exact nomatch ihFirst first'
    | next first' further =>
      obtain ⟨-, rfl⟩ := Prod.mk.inj (ihFirst first')
      exact ihFurther further
  | closed failed =>
    cases h' with
    | closed failed' => simpa [failed] using failed'
    | opened gave _ => exact nomatch failed.symm.trans gave
  | opened gave _ ih =>
    cases h' with
    | closed failed => exact nomatch gave.symm.trans failed
    | opened gave' inside =>
      obtain ⟨⟨⟩, rfl⟩ := Prod.mk.inj (gave.symm.trans gave')
      exact ih inside
  | unannounced failed =>
    cases h' with
    | unannounced failed' => simpa [failed] using failed'
    | overflow announced _ => exact nomatch failed.symm.trans announced
    | refused announced _ _ => exact nomatch failed.symm.trans announced
    | entered announced _ _ _ => exact nomatch failed.symm.trans announced
  | overflow announced full =>
    cases h' with
    | unannounced failed => exact nomatch announced.symm.trans failed
    | overflow announced' _ =>
      obtain ⟨-, rfl⟩ := Prod.mk.inj (announced.symm.trans announced')
      rfl
    | refused announced' room _ =>
      obtain ⟨-, rfl⟩ := Prod.mk.inj (announced.symm.trans announced')
      omega
    | entered announced' room _ _ =>
      obtain ⟨-, rfl⟩ := Prod.mk.inj (announced.symm.trans announced')
      omega
  | refused announced room full =>
    cases h' with
    | unannounced failed => exact nomatch announced.symm.trans failed
    | overflow announced' beyond =>
      obtain ⟨-, rfl⟩ := Prod.mk.inj (announced.symm.trans announced')
      omega
    | refused announced' _ full' =>
      obtain ⟨-, rfl⟩ := Prod.mk.inj (announced.symm.trans announced')
      rw [Option.some.inj (full.symm.trans full')]
    | entered announced' _ free _ =>
      obtain ⟨-, rfl⟩ := Prod.mk.inj (announced.symm.trans announced')
      exact nomatch full.symm.trans free
  | entered announced room free _ ih =>
    cases h' with
    | unannounced failed => exact nomatch announced.symm.trans failed
    | overflow announced' beyond =>
      obtain ⟨-, rfl⟩ := Prod.mk.inj (announced.symm.trans announced')
      omega
    | refused announced' _ full =>
      obtain ⟨-, rfl⟩ := Prod.mk.inj (announced.symm.trans announced')
      exact nomatch free.symm.trans full
    | entered announced' _ _ inside =>
      obtain ⟨⟨⟩, rfl⟩ := Prod.mk.inj (announced.symm.trans announced')
      rw [ih inside]

end Task.Yields

/-! ## The interpreter follows the rules -/

/-- A calm execution leaves the stack as it found it. -/
theorem Exec.Calm.stack_run {α : Type} {x : Exec α} (h : x.Calm) (m : Machine) :
    (x.run m).2.stack = m.stack :=
  h.stack_of_mem_states m _ (x.run_mem_states m)

theorem calm_announceCall (name : String) : (announceCall name).Calm :=
  .bind (.record rfl) fun _ => .asksOrRaises fun m _ => m.isOverflow_of_callee

theorem calm_openBody (program : Program) (name : String) (id : FunctionId)
    (scope outer : ScopeId) : (openBody program name id scope outer).Calm := by
  rw [openBody]
  refine .bind (.record rfl) fun _ => ?_
  split
  · exact rfl
  · exact .bind (calm_hoist _ _) fun _ => trivial

theorem calm_openScript (config : Config) (program : Program) :
    (openScript config program).Calm :=
  .bind (.record rfl) fun _ => .bind (calm_hoist _ _) fun _ => trivial

/-- A body is its opening with its statements after it. -/
theorem runBody_eq (program : Program) (call : String → Exec Unit) (name : String)
    (id : FunctionId) (scope outer : ScopeId) :
    runBody program call name id scope outer =
      openBody program name id scope outer >>= executeAll call := by
  rw [runBody, openBody, bind_assoc]
  congr 1
  funext _
  cases program.function? id with
  | none => rfl
  | some definition =>
    dsimp only
    rw [bind_assoc]
    rfl

theorem callFunction_eq (program : Program) (limit allowance : Nat) (name : String) :
    callFunction program limit allowance name = announceCall name >>= fun id =>
      match allowance with
      | 0 => .raise (.stackOverflow limit)
      | allowance + 1 =>
        inFrame name id (runBody program (callFunction program limit allowance) name id) := by
  rw [announceCall, bind_assoc]
  cases allowance <;> rfl

theorem runScript_eq (config : Config) (program : Program) :
    runScript config program =
      openScript config program >>= executeStatements program config.callDepthLimit := by
  rw [runScript, openScript, bind_assoc]
  congr 1
  funext _
  rw [bind_assoc]
  rfl

namespace Task.Yields

variable {program : Program} {limit : Nat}

theorem execute {call : String → Exec Unit} {m : Machine}
    (calls : ∀ name, Task.Yields program limit (.call name) m ((call name).run m)) (s : Statement) :
    Task.Yields program limit (.statement s) m ((ScriptTrace.execute call s).run m) := by
  cases called : s.calledName? with
  | some name =>
    rw [execute_of_calledName? called]
    exact .calling called (calls name)
  | none =>
    rw [execute_eq_of_calledName? called call fun _ => .done ()]
    exact .quiet called

/-- Statements one after another.  Each leaves the stack as it found it, so `each` holds of the next
one too. -/
theorem sequence {x : Statement → Exec Unit} {xs : List Statement → Exec Unit}
    (nil : xs [] = .done ()) (cons : ∀ s rest, xs (s :: rest) = x s >>= fun _ => xs rest)
    (orderly : ∀ s, (x s).Orderly Effect.OfStatement) {stack : Stack} (ne : stack.frames ≠ [])
    (each : ∀ (s : Statement) (m : Machine), m.stack = stack →
      Task.Yields program limit (.statement s) m ((x s).run m))
    (statements : List Statement) {m : Machine} (here : m.stack = stack) :
    Task.Yields program limit (.sequence statements) m ((xs statements).run m) := by
  induction statements generalizing m with
  | nil =>
    rw [nil]
    exact .nil
  | cons s rest ih =>
    have first := each s m here
    have kept := (orderly s).stack_run (here ▸ ne)
    rw [cons]
    rcases ended : (x s).run m with ⟨fault | _, m'⟩
    · rw [ended] at first
      rw [Exec.run_bind_of_error ended]
      exact .stop first
    · rw [ended] at first kept
      rw [Exec.run_bind_of_ok ended]
      exact .next first (ih (kept.trans here))

/-- An opening with its statements after it. -/
theorem bind {opening : Exec (List Statement)} {xs : List Statement → Exec Unit} {m : Machine}
    (calm : opening.Calm)
    (inside : ∀ (statements : List Statement) (m' : Machine), m'.stack = m.stack →
      Task.Yields program limit (.sequence statements) m' ((xs statements).run m')) :
    Task.Yields program limit (.opened opening) m ((opening >>= xs).run m) := by
  have kept := calm.stack_run m
  rcases ended : opening.run m with ⟨fault | statements, m'⟩
  · rw [Exec.run_bind_of_error ended]
    exact .closed ended
  · rw [ended] at kept
    rw [Exec.run_bind_of_ok ended]
    exact .opened ended (inside statements m' kept)

end Task.Yields

/-- **A call ends.**  The induction is on the room that the stack leaves; a body has one less. -/
theorem yields_callFunction (program : Program) (limit : Nat) (name : String) {m : Machine}
    (ne : m.stack.frames ≠ []) :
    Task.Yields program limit (.call name) m
      ((callFunction program limit (limit - m.stack.depth) name).run m) := by
  generalize left : limit - m.stack.depth = allowance
  induction allowance generalizing m name with
  | zero =>
    have kept := (calm_announceCall name).stack_run m
    rw [callFunction_eq]
    rcases announced : (announceCall name).run m with ⟨fault | id, m'⟩
    · rw [Exec.run_bind_of_error announced]
      exact .unannounced announced
    · rw [announced] at kept
      rw [Exec.run_bind_of_ok announced]
      exact .overflow announced (kept ▸ Nat.le_of_sub_eq_zero left)
  | succ allowance ih =>
    have kept := (calm_announceCall name).stack_run m
    rw [callFunction_eq]
    rcases announced : (announceCall name).run m with ⟨fault | id, m'⟩
    · rw [Exec.run_bind_of_error announced]
      exact .unannounced announced
    rw [announced] at kept
    rw [Exec.run_bind_of_ok announced]
    have room : m'.stack.depth < limit := by
      rw [kept]
      omega
    cases full : m'.recorder.reached? with
    | some steps =>
      dsimp only
      rw [inFrame, Exec.run_asks_bind, Exec.run_bind_of_error (run_record_of_reached full)]
      exact .refused announced room full
    | none =>
      dsimp only
      rw [run_inFrame_of_room _ _ _ full]
      refine .entered announced room full ?_
      have one_less : limit - (m'.entered name id).stack.depth = allowance := by
        show limit - (m'.stack.depth + 1) = allowance
        rw [kept]
        omega
      have calls : ∀ (other : String) (inner : Machine),
          inner.stack = (m'.entered name id).stack →
          Task.Yields program limit (.call other) inner
            ((callFunction program limit allowance other).run inner) := by
        intro other inner here
        exact ih other (here ▸ m'.frames_entered_ne_nil name id) (here ▸ one_less)
      rw [runBody_eq]
      refine .bind (calm_openBody _ _ _ _ _) fun statements inner here => ?_
      exact .sequence rfl (fun _ _ => rfl) (orderly_execute (orderly_callFunction program limit _))
        (m'.frames_entered_ne_nil name id)
        (fun s inner here => .execute (fun other => calls other inner here) s) statements here

/-- **The run of a script ends.** -/
theorem yields_runScript (config : Config) (program : Program) :
    Task.Yields program config.callDepthLimit (.opened (openScript config program))
      (.initial config) ((runScript config program).run (.initial config)) := by
  have ne : (Machine.initial config).stack.frames ≠ [] := List.cons_ne_nil _ _
  rw [runScript_eq]
  refine .bind (calm_openScript _ _) fun statements m here => ?_
  refine .sequence rfl (fun _ _ => rfl) (orderly_executeStatement program _) ne ?_ statements here
  intro s m here
  exact .execute (fun name => yields_callFunction program _ name (here ▸ ne)) s

/-! ## The data of a value -/

namespace Heap

/-- The data of a value, where the objects `opened` are being unfolded.  There is no bound on how
many more may be. -/
inductive Unfolds (h : Heap) : List ObjectId → Value → Json → Prop
  | undefined {opened : List ObjectId} : Unfolds h opened .undefined .null
  | null {opened : List ObjectId} : Unfolds h opened .null .null
  | bool {opened : List ObjectId} (b : Bool) : Unfolds h opened (.bool b) (.bool b)
  | str {opened : List ObjectId} (s : String) : Unfolds h opened (.str s) (.str s)
  | num {opened : List ObjectId} (x : Number) : Unfolds h opened (.num x) x.toJson
  | function {opened : List ObjectId} (name : String) :
      Unfolds h opened (.function name) (.str (Value.function name).text)
  /-- The object is being unfolded. -/
  | circular {opened : List ObjectId} {id : ObjectId} (mem : id ∈ opened) :
      Unfolds h opened (.object id) (.str "[Circular]")
  /-- The object is opened, and its properties are unfolded. -/
  | object {opened : List ObjectId} {id : ObjectId} (fresh : id ∉ opened)
      {data : String × Value → Json}
      (each : ∀ property ∈ h.properties id, Unfolds h (id :: opened) property.2 (data property)) :
      Unfolds h opened (.object id)
        (.obj ((h.properties id).map fun property => (property.1, data property)))

/-- A reference to no object of the heap has no properties. -/
theorem properties_of_size_le {h : Heap} {id : ObjectId} (le : h.objects.size ≤ id) :
    h.properties id = [] := by
  rw [properties, object?, Array.getElem?_eq_none le]
  rfl

/-- When as many different objects are open as the heap has, every object of the heap is. -/
theorem mem_of_size_le_length {h : Heap} {opened : List ObjectId} (nodup : opened.Nodup)
    (inside : ∀ id ∈ opened, id < h.objects.size) (le : h.objects.size ≤ opened.length)
    {id : ObjectId} (lt : id < h.objects.size) : id ∈ opened := by
  have subset : opened ⊆ List.range h.objects.size :=
    fun other mem => List.mem_range.mpr (inside other mem)
  have all : opened.Perm (List.range h.objects.size) :=
    (List.subperm_of_subset nodup subset).perm_of_length_le (by rwa [List.length_range])
  exact all.mem_iff.mpr (List.mem_range.mpr lt)

/-- The count is large enough as long as the heap has no more objects than those that are open and
those that may still be. -/
theorem unfolds_unfold (h : Heap) {budget : Nat} {opened : List ObjectId} (nodup : opened.Nodup)
    (inside : ∀ id ∈ opened, id < h.objects.size)
    (room : h.objects.size ≤ budget + opened.length) (value : Value) :
    h.Unfolds opened value (h.unfold budget opened value) := by
  induction budget generalizing opened value with
  | zero =>
    cases value with
    | object id =>
      rw [unfold]
      split
      · rename_i mem
        exact .circular mem
      · rename_i fresh
        have outside : h.properties id = [] := by
          refine properties_of_size_le (Nat.le_of_not_lt fun lt => fresh ?_)
          exact mem_of_size_le_length nodup inside (by omega) lt
        have empty : h.Unfolds opened (.object id)
            (.obj ((h.properties id).map fun property => (property.1, Json.null))) :=
          .object fresh (by simp [outside])
        rwa [outside] at empty
    | _ =>
      rw [unfold]
      constructor
  | succ budget ih =>
    cases value with
    | object id =>
      rw [unfold]
      split
      · rename_i mem
        exact .circular mem
      · rename_i fresh
        refine .object fresh fun property mem => ?_
        have lt : id < h.objects.size := by
          refine Nat.lt_of_not_le fun le => ?_
          rw [properties_of_size_le le] at mem
          exact nomatch mem
        refine ih (List.nodup_cons.mpr ⟨fresh, nodup⟩) ?_ ?_ _
        · intro other isOpen
          rcases List.mem_cons.mp isOpen with rfl | isOpen
          · exact lt
          · exact inside other isOpen
        · rw [List.length_cons]
          omega
    | _ =>
      rw [unfold]
      constructor

/-- **The data of a value end**, whatever the heap, and the snapshot gives them. -/
theorem unfolds_snapshot (h : Heap) (value : Value) : h.Unfolds [] value (h.snapshot value) :=
  h.unfolds_unfold List.nodup_nil (fun _ mem => nomatch mem) (Nat.le_add_right _ _) value

end Heap

/-! ## The height of the stack -/

namespace Exec

variable {α β : Type} {n : Nat}

/-- In no state of the execution are there more than `n` frames above those it started with. -/
def RisesBy (n : Nat) (x : Exec α) : Prop :=
  ∀ m : Machine, m.stack.frames ≠ [] → ∀ s ∈ x.states m, s.stack.depth ≤ m.stack.depth + n

namespace RisesBy

theorem of_calm {x : Exec α} (calm : x.Calm) : x.RisesBy n := by
  intro m _ s hs
  rw [calm.stack_of_mem_states m s hs]
  exact Nat.le_add_right _ _

/-- One execution after another, where the first leaves the stack as it found it. -/
theorem bind {x : Exec α} {next : α → Exec β}
    (kept : ∀ m : Machine, m.stack.frames ≠ [] → (x.run m).2.stack = m.stack)
    (first : x.RisesBy n) (each : ∀ a, (next a).RisesBy n) : (x >>= next).RisesBy n := by
  intro m ne s hs
  rcases mem_states_bind hs with hs | ⟨a, -, hs⟩
  · exact first m ne s hs
  · have stack := kept m ne
    have further := each a _ (stack ▸ ne) s hs
    rwa [stack] at further

theorem calm_bind {x : Exec α} {next : α → Exec β} (calm : x.Calm)
    (each : ∀ a, (next a).RisesBy n) : (x >>= next).RisesBy n :=
  .bind (fun m _ => calm.stack_run m) (.of_calm calm) each

/-- A body in a frame of its own: the frame, and what the body puts on top of it. -/
theorem inFrame {allowed : Effect → Prop} {body : ScopeId → ScopeId → Exec Unit}
    (orderly : ∀ scope outer, (body scope outer).Orderly allowed)
    (each : ∀ scope outer, (body scope outer).RisesBy n) (name : String) (id : FunctionId) :
    (ScriptTrace.inFrame name id body).RisesBy (n + 1) := by
  intro m ne s hs
  have entered : (m.entered name id).stack.depth = m.stack.depth + 1 := rfl
  have stack := (orderly m.scopes.size m.currentScope).stack_run (m.frames_entered_ne_nil name id)
  rcases stack_of_mem_states_inFrame hs with here | inside | leaving
  · rw [here]
    omega
  · have above := each _ _ _ (m.frames_entered_ne_nil name id) s inside
    omega
  · rcases stack_of_mem_states_leaveFrame leaving with still | gone
    · rw [still, stack]
      omega
    · rw [gone, stack, Machine.pop_stack_entered ne]
      omega

end RisesBy

end Exec

theorem risesBy_execute {call : String → Exec Unit} {n : Nat}
    (each : ∀ name, (call name).RisesBy n) (s : Statement) : (execute call s).RisesBy n := by
  cases called : s.calledName? with
  | some name =>
    rw [execute_of_calledName? called]
    exact each name
  | none => exact .of_calm (calm_execute_of_calledName? called call)

/-- **A call puts at most as many frames on the stack as its allowance.** -/
theorem risesBy_callFunction (program : Program) (limit allowance : Nat) (name : String) :
    (callFunction program limit allowance name).RisesBy allowance := by
  induction allowance generalizing name with
  | zero =>
    rw [callFunction_eq]
    refine .calm_bind (calm_announceCall name) fun id => ?_
    intro m _ s hs
    rw [List.mem_singleton.mp hs]
    exact Nat.le_refl _
  | succ allowance ih =>
    have calls := orderly_callFunction program limit allowance
    have statements : ∀ body : List Statement,
        (executeAll (callFunction program limit allowance) body).RisesBy allowance := by
      intro body
      induction body with
      | nil => exact .of_calm trivial
      | cons s rest further =>
        have kept := fun m ne => (orderly_execute calls s).stack_run (m := m) ne
        exact .bind kept (risesBy_execute ih s) fun _ => further
    rw [callFunction_eq]
    refine .calm_bind (calm_announceCall name) fun id => ?_
    refine .inFrame (orderly_runBody program calls name id) (fun scope outer => ?_) name id
    rw [runBody_eq]
    exact .calm_bind (calm_openBody _ _ _ _ _) statements

/-- With the allowance that the bound leaves, the stack stays within the bound. -/
theorem depth_of_mem_states_executeStatements (program : Program) (limit : Nat)
    (statements : List Statement) {m : Machine} (ne : m.stack.frames ≠ []) :
    ∀ s ∈ (executeStatements program limit statements).states m,
      s.stack.depth ≤ max m.stack.depth limit := by
  induction statements generalizing m with
  | nil =>
    intro s hs
    rw [List.mem_singleton.mp hs]
    exact Nat.le_max_left _ _
  | cons statement rest ih =>
    intro s hs
    rw [executeStatements] at hs
    rcases Exec.mem_states_bind hs with hs | ⟨_, -, hs⟩
    · have calls := risesBy_callFunction program limit (limit - m.stack.depth)
      have above := risesBy_execute calls statement m ne s hs
      omega
    · have stack := (orderly_executeStatement program limit statement).stack_run ne
      have further := ih (stack ▸ ne) s hs
      rwa [stack] at further

/-- **Every run ends, and its stack stays within the bound.**  For every program and all settings,
the rules of a run yield one outcome, which is the one that the trace is made of.  In every state on
the way there is a frame on the stack, and there are no more than the bound allows, that of the
script apart; the search for a name ends from every scope, and the data of every value end. -/
theorem runProgram_terminates (config : Config) (program : Program) :
    let limit := min config.maxCallDepth 256
    (∀ outcome, Task.Yields program limit (.opened (openScript config program)) (.initial config)
        outcome ↔ outcome = (runScript config program).run (.initial config)) ∧
    ∀ m ∈ (runScript config program).states (.initial config),
      1 ≤ m.stack.depth ∧ m.stack.depth ≤ max 1 limit ∧
      (∀ start name, m.scopes.Resolves name start (m.scopes.resolve? start name)) ∧
      ∀ value, m.heap.Unfolds [] value (m.heap.snapshot value) := by
  intro limit
  have ends : Task.Yields program limit _ _ _ := yields_runScript config program
  refine ⟨fun outcome => ⟨fun yields => yields.unique ends, fun same => same ▸ ends⟩, ?_⟩
  intro m reached
  have linked := Machine.linked_of_mem_states reached
  refine ⟨List.length_pos_iff.mpr linked.frames_ne_nil, ?_, linked.wellLinked.resolves_resolve?,
    m.heap.unfolds_snapshot⟩
  rw [runScript_eq] at reached
  have calm := calm_openScript config program
  rcases Exec.mem_states_bind reached with reached | ⟨statements, -, reached⟩
  · rw [calm.stack_of_mem_states _ m reached]
    exact Nat.le_max_left _ _
  · have stack := calm.stack_run (.initial config)
    have ne : (Machine.initial config).stack.frames ≠ [] := List.cons_ne_nil _ _
    have within := depth_of_mem_states_executeStatements program limit statements (stack ▸ ne) m
      reached
    rwa [stack] at within

end ScriptTrace
