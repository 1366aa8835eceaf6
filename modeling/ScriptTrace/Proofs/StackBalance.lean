import ScriptTrace.Proofs.Calm
import ScriptTrace.Proofs.ScopeChain

/-!
# Frames come off as they went on

Taking a frame off a stack that has only one does nothing, so a run that took off one frame too many
would not stop; it would go on in the wrong frame.  This file shows that it does not happen.

An orderly execution ends with the stack that it began with (`Exec.Orderly.stack_run`), and on the
way the frames of that stack stay where they are, with other frames on top of them at most
(`Exec.Orderly.frames_suffix`).  The first says that every frame which is put on comes off again,
whatever fault is raised above it; the second, that no frame comes off which was there before.  The
second needs the first: the next execution begins with the frames that the one before it leaves.

* `execution_restores_stack`: both, for statements, expressions and declarations in every state of a
  run.
-/

namespace ScriptTrace

namespace Exec

variable {α β : Type}

/-- A calm execution does not touch the stack at all. -/
theorem Calm.stack_of_mem_states {x : Exec α} (h : x.Calm) (m : Machine) :
    ∀ s ∈ x.states m, s.stack = m.stack := by
  refine h.forall_states_of_forall (P := fun s => s.stack = m.stack) ?_ rfl
  intro effect s calm stack
  rw [Effect.stack_apply_of_isCalm calm, stack]

/-- Every state of a run of two executions is a state of the first, or of the second after a result
of the first. -/
theorem mem_states_bind {x : Exec α} {next : α → Exec β} {m s : Machine}
    (h : s ∈ (x >>= next).states m) :
    s ∈ x.states m ∨ ∃ a, (x.run m).1 = .ok a ∧ s ∈ (next a).states (x.run m).2 := by
  change s ∈ (x.bind next).states m at h
  rw [bind_eq_attempt] at h
  rcases mem_states_attempt h with h | h
  · exact Or.inl h
  · cases outcome : (x.run m).1 with
    | error fault =>
      rw [outcome] at h
      rw [List.mem_singleton.mp h]
      exact Or.inl (x.run_mem_states m)
    | ok a =>
      rw [outcome] at h
      exact Or.inr ⟨a, rfl, h⟩

theorem mem_states_record {event : Event} {m s : Machine} (h : s ∈ (record event).states m) :
    s = m ∨ s = (Effect.record event).apply m := by
  rw [record, states] at h
  cases room : m.recorder.reached? with
  | some limit =>
    rw [room] at h
    exact Or.inl (List.mem_singleton.mp h)
  | none =>
    rw [room] at h
    simpa [perform, states] using h

/-- Leaving a frame passes through states with that frame and states without it. -/
theorem stack_of_mem_states_leaveFrame {name : String} {outcome : Except Fault Unit}
    {m s : Machine} (h : s ∈ (leaveFrame name outcome).states m) :
    s.stack = m.stack ∨ s.stack = m.stack.pop := by
  cases outcome with
  | error fault =>
    have passed : s = m ∨ s = Effect.noteFault.apply m ∨
        s = Effect.leave.apply (Effect.noteFault.apply m) := by
      simpa [leaveFrame, perform, Bind.bind, Exec.bind, states] using h
    rcases passed with rfl | rfl | rfl
    · exact Or.inl rfl
    · exact Or.inl rfl
    · exact Or.inr rfl
  | ok _ =>
    rw [leaveFrame] at h
    rcases mem_states_bind h with h | ⟨_, -, h⟩
    · have passed : s = m ∨ s = Effect.leave.apply m := by simpa [perform, states] using h
      rcases passed with rfl | rfl
      · exact Or.inl rfl
      · exact Or.inr rfl
    · rcases mem_states_record h with rfl | rfl
      · exact Or.inr rfl
      · exact Or.inr rfl

/-- A body in a frame of its own passes through states with the stack of before, and through those
of the body. -/
theorem stack_of_mem_states_inFrame {name : String} {id : FunctionId}
    {body : ScopeId → ScopeId → Exec Unit} {m s : Machine}
    (h : s ∈ (inFrame name id body).states m) :
    s.stack = m.stack ∨ s ∈ (body m.scopes.size m.currentScope).states (m.entered name id) ∨
      s ∈ (leaveFrame name ((body m.scopes.size m.currentScope).run (m.entered name id)).1).states
        ((body m.scopes.size m.currentScope).run (m.entered name id)).2 := by
  rw [inFrame] at h
  rcases mem_states_bind h with h | ⟨depth, asked, h⟩
  · rw [List.mem_singleton.mp h]
    exact Or.inl rfl
  obtain rfl : m.stack.depth = depth := Except.ok.inj asked
  rcases mem_states_bind h with h | ⟨_, told, h⟩
  · rcases mem_states_record h with rfl | rfl
    · exact Or.inl rfl
    · exact Or.inl rfl
  change ((record (.enterCall name (m.stack.depth + 1))).run m).1 = .ok _ at told
  change s ∈ Exec.states _ ((record (.enterCall name (m.stack.depth + 1))).run m).2 at h
  cases room : m.recorder.reached? with
  | some limit =>
    rw [run_record_of_reached room] at told
    cases told
  | none =>
    rw [run_record_of_room room] at h
    change s ∈ (Effect.record (.enterCall name (m.stack.depth + 1))).apply m ::
      ((body m.scopes.size m.currentScope).attempt (leaveFrame name)).states
        (m.entered name id) at h
    rcases List.mem_cons.mp h with rfl | h
    · exact Or.inl rfl
    · exact Or.inr (mem_states_attempt h)

/-- **The frames of the stack stay where they are during an orderly execution**, under those that it
puts on top. -/
theorem Orderly.frames_suffix {allowed : Effect → Prop} {x : Exec α} (h : x.Orderly allowed)
    {m : Machine} (ne : m.stack.frames ≠ []) :
    ∀ s ∈ x.states m, m.stack.frames <:+ s.stack.frames := by
  have same : ∀ {m s : Machine}, s.stack = m.stack → m.stack.frames <:+ s.stack.frames := by
    intro m s stack
    exact stack ▸ List.suffix_refl _
  induction h generalizing m with
  | done _ =>
    intro s hs
    exact same (congrArg Machine.stack (List.mem_singleton.mp hs))
  | raise _ _ =>
    intro s hs
    exact same (congrArg Machine.stack (List.mem_singleton.mp hs))
  | look _ _ ih => exact ih m ne
  | record event _ =>
    intro s hs
    rcases mem_states_record hs with rfl | rfl
    · exact same rfl
    · exact same rfl
  | perform effect isLocal _ =>
    intro s hs
    have passed : s = m ∨ s = effect.apply m := by simpa [Exec.perform, states] using hs
    rcases passed with rfl | rfl
    · exact same rfl
    · exact same (Effect.stack_apply_of_isLocal isLocal m)
  | @bind _ _ x next orderly _ first each =>
    intro s hs
    rcases mem_states_bind hs with hs | ⟨a, -, hs⟩
    · exact first ne s hs
    · have stack := orderly.stack_run ne
      have further := each a (m := (x.run m).2) (stack ▸ ne) s hs
      rwa [stack] at further
  | @inFrame name id body _ orderly each =>
    intro s hs
    have under : m.stack.frames <:+ (m.entered name id).stack.frames := List.suffix_cons _ _
    have stack := (orderly m.scopes.size m.currentScope).stack_run (m.frames_entered_ne_nil name id)
    rcases stack_of_mem_states_inFrame hs with here | inside | leaving
    · exact same here
    · exact under.trans (each _ _ (m.frames_entered_ne_nil name id) s inside)
    · rcases stack_of_mem_states_leaveFrame leaving with still | gone
      · rw [still, stack]
        exact under
      · exact same (by rw [gone, stack, Machine.pop_stack_entered ne])

end Exec

/-! ## Every state of a run -/

/-- The bottom frame of a run is that of the script, in every state. -/
theorem Machine.bottom_of_mem_states {config : Config} {program : Program} {m : Machine}
    (reached : m ∈ (runScript config program).states (.initial config)) :
    m.stack.frames.getLast? = some ⟨config.globalFrameName, none, globalScope⟩ := by
  have suffix := (orderly_runScript config program).frames_suffix (m := .initial config)
    (List.cons_ne_nil _ _) m reached
  obtain ⟨above, frames⟩ := suffix
  rw [← frames]
  exact List.getLast?_concat

theorem finalCallStack_runProgram (config : Config) (program : Program) :
    (runProgram config program).finalCallStack = [config.globalFrameName] := by
  have stack := (orderly_runScript config program).stack_run (m := .initial config)
    (List.cons_ne_nil _ _)
  rcases ended : (runScript config program).run (.initial config) with ⟨fault | _, m⟩
  · rw [ended] at stack
    rw [runProgram_of_fault ended]
    exact congrArg Stack.names stack
  · rw [ended] at stack
    rw [runProgram_of_result ended]
    exact congrArg Stack.names stack

/-- **Execution restores the stack.**  At the end of a run only the frame of the script is left.  In
every state of the run that frame is at the bottom; and whatever is executed there, a statement, an
expression or declarations, with a result or with any fault, the stack is afterwards frame for frame
what it was, and no frame of it has been taken off on the way. -/
theorem execution_restores_stack (config : Config) (program : Program) :
    (runProgram config program).finalCallStack = [config.globalFrameName] ∧
      ∀ m ∈ (runScript config program).states (.initial config),
        m.stack.frames.getLast? = some ⟨config.globalFrameName, none, globalScope⟩ ∧
        (∀ s : Statement,
          ((executeStatement program config.callDepthLimit s).run m).2.stack = m.stack ∧
            ∀ m' ∈ (executeStatement program config.callDepthLimit s).states m,
              m.stack.frames <:+ m'.stack.frames) ∧
        (∀ e : Expression, ((evaluate e).run m).2.stack = m.stack ∧
          ∀ m' ∈ (evaluate e).states m, m'.stack = m.stack) ∧
        ∀ (mode : HoistMode) (statements : List Statement),
          ((hoist mode statements).run m).2.stack = m.stack ∧
            ∀ m' ∈ (hoist mode statements).states m, m'.stack = m.stack := by
  refine ⟨finalCallStack_runProgram config program, fun m reached => ?_⟩
  have ne := (Machine.linked_of_mem_states reached).frames_ne_nil
  refine ⟨Machine.bottom_of_mem_states reached, fun s => ?_, fun e => ?_, fun mode statements => ?_⟩
  · have orderly := orderly_executeStatement program config.callDepthLimit s
    exact ⟨orderly.stack_run ne, orderly.frames_suffix ne⟩
  · have still := (calm_evaluate e).stack_of_mem_states m
    exact ⟨still _ ((evaluate e).run_mem_states m), still⟩
  · have still := (calm_hoist mode statements).stack_of_mem_states m
    exact ⟨still _ ((hoist mode statements).run_mem_states m), still⟩

/-- A call of `f`. -/
def callOfF : Statement :=
  .expression ⟨0, 0⟩ (.call ⟨0, 0⟩ (.identifier ⟨"f", ⟨0, 0⟩⟩) [])

/-- A script whose function reads a name that nothing binds: `function f() { b = a; } f();`. -/
def failingCall : Program where
  body := [.functionDeclaration ⟨0, 0⟩ ⟨"f", ⟨0, 0⟩⟩ 0, callOfF]
  functions :=
    #[⟨⟨0, 0⟩, none, [], [.expression ⟨0, 0⟩
      (.assignVariable ⟨0, 0⟩ ⟨"b", ⟨0, 0⟩⟩ (.identifier ⟨"a", ⟨0, 0⟩⟩))]⟩]

/-- Inside the call of `failingCall`, a second call fails in a third frame; afterwards the two
frames of before are there again. -/
theorem failingCall_restores_stack :
    ∃ m ∈ (runScript {} failingCall).states (.initial {}),
      let ended := (executeStatement failingCall (Config.callDepthLimit {}) callOfF).run m
      m.stack.names = ["Global", "f"] ∧ ended.1.toOption = none ∧
        ended.2.siteOfFault = ["Global", "f", "f"] ∧ ended.2.stack = m.stack := by
  obtain ⟨m, reached, names, failed, site⟩ :
      ∃ m ∈ (runScript {} failingCall).states (.initial {}), m.stack.names = ["Global", "f"] ∧
        ((executeStatement failingCall (Config.callDepthLimit {}) callOfF).run m).1.toOption =
          none ∧
        ((executeStatement failingCall (Config.callDepthLimit {}) callOfF).run m).2.siteOfFault =
          ["Global", "f", "f"] := by decide
  obtain ⟨-, every⟩ := execution_restores_stack {} failingCall
  obtain ⟨-, statements, -⟩ := every m reached
  exact ⟨m, reached, names, failed, site, (statements callOfF).1⟩

end ScriptTrace
