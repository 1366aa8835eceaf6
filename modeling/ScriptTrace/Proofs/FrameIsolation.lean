import ScriptTrace.Proofs.CallStack
import ScriptTrace.Proofs.ScopeChain
import Mathlib.Data.List.Basic

/-!
# What a call can change for its callers

A name is bound in the scope of the running frame and nowhere else, whatever scopes around it bind
the same name.  The body of a call runs in a frame with a new scope.  So a call changes no scope that
was there before it, not even that of the frame that makes the call, and a statement changes at most
the scope of its own frame.  Functions are stored by the hoisting of the script only.

`Machine.AgreeOutside touched` says this of two states, for the scopes that are there in the first
one.  The induction is over the shapes of orderly executions.  The shape that carries the argument is
a body in a frame of its own (`agreeOutside_inFrame`): what the body may touch is the new scope, and
that one was not there before.

After a call the stack is what it was, and the scopes around the running frame are those of the
stack; so every variable still reads the same and every name still calls the same function
(`Machine.AgreeOutside.lookup_eq`, `Machine.AgreeOutside.callee_eq`).  What is left for a call to
change is the properties of objects.

* `Exec.Orderly.agreeOutside`: what a statement may touch.
* `agreeOutside_callFunction`: a call touches nothing.
* `executeStatement_isolates_frames`: both, for every state of a run.
-/

namespace ScriptTrace

/-! ## States that agree outside some scopes -/

/-- The functions are the same, and the scopes of the first state are still there, unchanged outside
`touched`. -/
structure Machine.AgreeOutside (touched : ScopeId → Prop) (m m' : Machine) : Prop where
  functions_eq : m'.heap.functions = m.heap.functions
  size_le : m.scopes.size ≤ m'.scopes.size
  get?_eq : ∀ id < m.scopes.size, ¬ touched id → m'.scopes.get? id = m.scopes.get? id

namespace Machine.AgreeOutside

variable {touched wider : ScopeId → Prop} {m m₁ m₂ : Machine}

theorem refl (touched : ScopeId → Prop) (m : Machine) : m.AgreeOutside touched m :=
  ⟨rfl, Nat.le_refl _, fun _ _ _ => rfl⟩

theorem trans (h : m.AgreeOutside touched m₁) (h' : m₁.AgreeOutside touched m₂) :
    m.AgreeOutside touched m₂ where
  functions_eq := h'.functions_eq.trans h.functions_eq
  size_le := Nat.le_trans h.size_le h'.size_le
  get?_eq id inside free := by
    rw [h'.get?_eq id (Nat.lt_of_lt_of_le inside h.size_le) free, h.get?_eq id inside free]

theorem mono (h : m.AgreeOutside touched m₁) (le : ∀ id, touched id → wider id) :
    m.AgreeOutside wider m₁ :=
  ⟨h.functions_eq, h.size_le, fun id inside free => h.get?_eq id inside fun t => free (le id t)⟩

/-- One execution after another. -/
theorem run_bind {α β : Type} {x : Exec α} {next : α → Exec β}
    (first : m.AgreeOutside touched (x.run m).2)
    (second : ∀ {a m'}, x.run m = (.ok a, m') → m'.AgreeOutside touched ((next a).run m').2) :
    m.AgreeOutside touched ((x >>= next).run m).2 := by
  rcases outcome : x.run m with ⟨fault | a, m'⟩
  · rw [outcome] at first
    rw [Exec.run_bind_of_error outcome]
    exact first
  · rw [outcome] at first
    rw [Exec.run_bind_of_ok outcome]
    exact first.trans (second outcome)

theorem run_record (touched : ScopeId → Prop) (m : Machine) (event : Event) :
    m.AgreeOutside touched ((record event).run m).2 := by
  cases room : m.recorder.reached? with
  | some limit =>
    rw [run_record_of_reached room]
    exact refl touched m
  | none =>
    rw [run_record_of_room room]
    exact ⟨rfl, Nat.le_refl _, fun _ _ _ => rfl⟩

end Machine.AgreeOutside

/-! ## Executions -/

/-- A local effect of a statement touches at most the scope of the running frame. -/
theorem Effect.OfStatement.agreeOutside_apply {effect : Effect} (may : effect.OfStatement)
    (isLocal : effect.isLocal = true) (m : Machine) :
    m.AgreeOutside (· = m.currentScope) (effect.apply m) := by
  cases may with
  | ofExpression write => cases write <;> exact ⟨rfl, Nat.le_refl _, fun _ _ _ => rfl⟩
  | bind name binding =>
    refine ⟨rfl, Nat.le_of_eq (m.scopes.size_put _ name binding).symm, fun id _ other => ?_⟩
    show (m.scopes.put m.currentScope name binding).get? id = m.scopes.get? id
    rw [Scopes.get?_put, if_neg fun same => other same.symm]
  | enter _ _ => nomatch isLocal

/-- **A body in a frame of its own touches no scope that was there before**, if it touches at most
the scope of its frame. -/
theorem agreeOutside_inFrame (name : String) (id : FunctionId)
    {body : ScopeId → ScopeId → Exec Unit}
    (each : ∀ scope outer {m : Machine}, m.stack.frames ≠ [] →
      m.AgreeOutside (· = m.currentScope) ((body scope outer).run m).2) (m : Machine) :
    m.AgreeOutside (fun _ => False) ((inFrame name id body).run m).2 := by
  have inside := each m.scopes.size m.currentScope (m.frames_entered_ne_nil name id)
  -- the scope of the new frame has the first index that was free
  have ran : m.AgreeOutside (fun _ => False)
      ((body m.scopes.size m.currentScope).run (m.entered name id)).2 := by
    have size : (m.entered name id).scopes.size = m.scopes.size + 1 := m.scopes.size_add _ _
    refine ⟨inside.functions_eq, ?_, fun scope old _ => ?_⟩
    · exact Nat.le_trans (Nat.le_of_lt (size ▸ Nat.lt_succ_self _)) inside.size_le
    · rw [inside.get?_eq scope (size ▸ Nat.lt_succ_of_lt old) (Nat.ne_of_lt old)]
      show (m.scopes.add name m.currentScope).get? scope = m.scopes.get? scope
      rw [Scopes.get?_add, if_neg (Nat.ne_of_lt old)]
  have frame := frameRun_inFrame name id body m
  generalize (inFrame name id body).run m = outcome at frame
  cases frame with
  | refused _ => exact .refl _ m
  | failed ended =>
    rw [ended] at ran
    exact ⟨ran.functions_eq, ran.size_le, ran.get?_eq⟩
  | untold ended _ =>
    rw [ended] at ran
    exact ⟨ran.functions_eq, ran.size_le, ran.get?_eq⟩
  | finished ended =>
    rw [ended] at ran
    exact ⟨ran.functions_eq, ran.size_le, ran.get?_eq⟩

theorem Machine.currentScope_of_stack_eq {m m' : Machine} (h : m'.stack = m.stack) :
    m'.currentScope = m.currentScope := by
  rw [Machine.currentScope, Machine.currentScope, h]

/-- **A statement touches at most the scope of the running frame**, with a result or with a
fault. -/
theorem Exec.Orderly.agreeOutside {α : Type} {x : Exec α} (h : x.Orderly Effect.OfStatement)
    {m : Machine} (ne : m.stack.frames ≠ []) :
    m.AgreeOutside (· = m.currentScope) (x.run m).2 := by
  induction h generalizing m with
  | done _ => exact .refl _ m
  | raise _ _ => exact .refl _ m
  | look _ _ ih => exact ih m ne
  | record event _ => exact .run_record _ m event
  | perform effect isLocal may => exact may.agreeOutside_apply isLocal m
  | @bind _ _ x next orderly _ first each =>
    refine .run_bind (first ne) fun {a m'} outcome => ?_
    have balanced := orderly.stack_run ne
    rw [outcome] at balanced
    have here := each a (balanced ▸ ne)
    rwa [Machine.currentScope_of_stack_eq balanced] at here
  | inFrame name id _ _ each =>
    exact (agreeOutside_inFrame name id each m).mono fun _ no => no.elim

/-- **A call touches no scope that was there before.** -/
theorem agreeOutside_callFunction (program : Program) (limit allowance : Nat) (name : String)
    (m : Machine) :
    m.AgreeOutside (fun _ => False) ((callFunction program limit allowance name).run m).2 := by
  rw [callFunction.eq_def]
  refine .run_bind (.run_record _ m _) fun {_ m₁} _ => ?_
  refine .run_bind ?_ fun {id m₂} _ => ?_
  · rw [Exec.run_asksOrRaises]
    exact .refl _ m₁
  · cases allowance with
    | zero => exact .refl _ m₂
    | succ allowance =>
      refine agreeOutside_inFrame name id (fun scope outer _ ne => ?_) m₂
      exact (orderly_runBody program (orderly_callFunction program limit allowance) name id
        scope outer).agreeOutside ne

/-! ## What a caller sees -/

namespace Machine

/-- The scopes of the frames are there. -/
theorem Linked.scope_lt_size {m : Machine} (h : m.Linked) {frame : Frame}
    (on : frame ∈ m.stack.frames) : frame.scope < m.scopes.size :=
  Nat.lt_of_le_of_lt (h.walk.le_start h.wellLinked _ (List.mem_map_of_mem on)) h.walk.start_lt_size

namespace AgreeOutside

variable {m m' : Machine}

/-- On the same stack with the same scopes, every variable reads the same. -/
theorem lookup_eq (h : m.AgreeOutside (fun _ => False) m') (stack : m'.stack = m.stack)
    (linked : m.Linked) (linked' : m'.Linked) (name : String) : m'.lookup name = m.lookup name := by
  have own : ∀ frame ∈ m.stack.frames,
      m'.scopes.binding? name frame.scope = m.scopes.binding? name frame.scope := by
    intro frame on
    rw [Scopes.binding?, Scopes.binding?, h.get?_eq _ (linked.scope_lt_size on) not_false]
  have same : m'.topmostBinding? name = m.topmostBinding? name := by
    rw [topmostBinding?, topmostBinding?, stack, ← List.head?_filterMap, ← List.head?_filterMap,
      List.filterMap_congr own]
  rw [linked.lookup_eq, linked'.lookup_eq, same]

/-- On the same stack with the same scopes, every name calls the same function. -/
theorem callee_eq (h : m.AgreeOutside (fun _ => False) m') (stack : m'.stack = m.stack)
    (linked : m.Linked) (linked' : m'.Linked) (name : String) : m'.callee name = m.callee name := by
  have functions : m'.heap.function? = m.heap.function? := by
    funext key
    rw [Heap.function?, Heap.function?, h.functions_eq]
  rw [callee, callee, functions, h.lookup_eq stack linked linked']

end AgreeOutside

end Machine

/-! ## Every state of a run -/

/-- **Frames are isolated.**  Execute any statement in any state of a run, and let it end with a
result or with a fault.  The functions and the stack are as before, and so is every scope that was
there, except that of the running frame.  If the statement is a call of a name, that scope is as
before too; so every variable still reads the same, and every name still calls the same function. -/
theorem executeStatement_isolates_frames (config : Config) (program : Program) (m : Machine)
    (reached : m ∈ (runScript config program).states (.initial config)) (s : Statement) :
    let m' := ((executeStatement program config.callDepthLimit s).run m).2
    m'.heap.functions = m.heap.functions ∧ m'.stack = m.stack ∧
      (∀ id < m.scopes.size, id ≠ m.currentScope → m'.scopes.get? id = m.scopes.get? id) ∧
      ∀ span callSpan name arguments,
        s = .expression span (.call callSpan (.identifier name) arguments) →
          (∀ id < m.scopes.size, m'.scopes.get? id = m.scopes.get? id) ∧
            ∀ key, m'.lookup key = m.lookup key ∧ m'.callee key = m.callee key := by
  intro m'
  have linked := Machine.linked_of_mem_states reached
  have ne := linked.frames_ne_nil
  have orderly := orderly_executeStatement program config.callDepthLimit s
  have agree := orderly.agreeOutside ne
  have stack := orderly.stack_run ne
  refine ⟨agree.functions_eq, stack, agree.get?_eq, ?_⟩
  rintro span callSpan name arguments rfl
  have untouched : m.AgreeOutside (fun _ => False) m' :=
    agreeOutside_callFunction program config.callDepthLimit _ name.name m
  have linked' : m'.Linked :=
    Exec.run_of_forall_effect (fun effect _ h => h.apply effect) _ linked
  refine ⟨fun id inside => untouched.get?_eq id inside not_false, fun key => ⟨?_, ?_⟩⟩
  · exact untouched.lookup_eq stack linked linked' key
  · exact untouched.callee_eq stack linked linked' key

/-- A second call made inside the call of `readingCall` has a scope of its own and leaves the two
scopes that were there alone. -/
theorem readingCall_isolates_frames :
    ∃ m ∈ (runScript {} readingCall).states (.initial {}),
      let again := .expression ⟨0, 0⟩ (.call ⟨0, 0⟩ (.identifier ⟨"f", ⟨0, 0⟩⟩) [])
      let m' := ((executeStatement readingCall (Config.callDepthLimit {}) again).run m).2
      m.stack.scopes = [0, 1] ∧ m'.scopes.size = 3 ∧
        ∀ id < 2, m'.scopes.get? id = m.scopes.get? id := by
  obtain ⟨m, reached, inside, two, three⟩ :
      ∃ m ∈ (runScript {} readingCall).states (.initial {}),
        m.stack.scopes = [0, 1] ∧ m.scopes.size = 2 ∧
          ((executeStatement readingCall (Config.callDepthLimit {}) (.expression ⟨0, 0⟩
            (.call ⟨0, 0⟩ (.identifier ⟨"f", ⟨0, 0⟩⟩) []))).run m).2.scopes.size = 3 := by decide
  obtain ⟨-, -, -, isCall⟩ := executeStatement_isolates_frames {} readingCall m reached
    (.expression ⟨0, 0⟩ (.call ⟨0, 0⟩ (.identifier ⟨"f", ⟨0, 0⟩⟩) []))
  obtain ⟨same, -⟩ := isCall _ _ _ _ rfl
  exact ⟨m, reached, inside, three, two ▸ same⟩

end ScriptTrace
