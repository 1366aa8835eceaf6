import ScriptTrace.Trace

/-!
# Contracts of executions

An invariant that every effect keeps holds along every execution, whatever the execution is.  Most
invariants are not of that kind: a binding is harmless if the value that it holds is, and that value
comes out of an expression that was evaluated before.  For these the execution has to be followed,
and what is known of intermediate results handed on.

`Exec.Meets always blames ensures x m` says what the execution `x` does from the state `m`:

* `always` holds in every state on the way, the first and the last included;
* a result and the last state satisfy `ensures`;
* a fault surfaces in a state on the way in which `blames` holds of it.  That state need not be the
  last one, since frames are taken off the stack after a fault.

There is one lemma for each way in which executions are put together.  What every effect keeps may
be carried past an execution (`Exec.Meets.frame`).
-/

namespace ScriptTrace

namespace Exec

variable {α β : Type}

/-! ## The states of two executions one after the other -/

theorem mem_states_start (x : Exec α) (m : Machine) : m ∈ x.states m := by
  induction x with
  | done _ => exact List.mem_singleton_self m
  | raise _ => exact List.mem_singleton_self m
  | look rest ih => exact ih m
  | act effect rest _ => exact List.mem_cons_self

/-- The states of the first execution are passed through. -/
theorem mem_states_attempt_left {x : Exec α} (next : Except Fault α → Exec β) {m s : Machine}
    (h : s ∈ x.states m) : s ∈ (x.attempt next).states m := by
  induction x generalizing m with
  | done result =>
    rw [List.mem_singleton.mp h]
    exact mem_states_start _ m
  | raise fault =>
    rw [List.mem_singleton.mp h]
    exact mem_states_start _ m
  | look rest ih => exact ih m h
  | act effect rest ih =>
    rcases List.mem_cons.mp h with rfl | h
    · exact List.mem_cons_self
    · exact List.mem_cons_of_mem _ (ih h)

/-- The states of the second execution are passed through. -/
theorem mem_states_attempt_right {x : Exec α} {next : Except Fault α → Exec β} {m s : Machine}
    (h : s ∈ (next (x.run m).1).states (x.run m).2) : s ∈ (x.attempt next).states m := by
  induction x generalizing m with
  | done _ => exact h
  | raise _ => exact h
  | look rest ih => exact ih m h
  | act effect rest ih => exact List.mem_cons_of_mem _ (ih h)

/-! ## Contracts -/

/-- What an execution does from a state. -/
structure Meets (always : Machine → Prop) (blames : Fault → Machine → Prop)
    (ensures : α → Machine → Prop) (x : Exec α) (m : Machine) : Prop where
  always_of_mem : ∀ s ∈ x.states m, always s
  ensures_of_ok : ∀ {a m'}, x.run m = (.ok a, m') → ensures a m'
  blames_of_error : ∀ {fault m'}, x.run m = (.error fault, m') →
    ∃ s ∈ x.states m, blames fault s

namespace Meets

variable {always : Machine → Prop} {blames : Fault → Machine → Prop}
variable {ensures : α → Machine → Prop} {m : Machine}

theorem done (here : always m) {result : α} (h : ensures result m) :
    (Exec.done result).Meets always blames ensures m where
  always_of_mem s hs := by rwa [List.mem_singleton.mp hs]
  ensures_of_ok := by
    rintro a m' ⟨⟩
    exact h
  blames_of_error run := nomatch run

theorem raise (here : always m) {fault : Fault} (h : blames fault m) :
    (Exec.raise fault : Exec α).Meets always blames ensures m where
  always_of_mem s hs := by rwa [List.mem_singleton.mp hs]
  ensures_of_ok run := nomatch run
  blames_of_error := by
    rintro fault' m' ⟨⟩
    exact ⟨m, List.mem_singleton_self m, h⟩

theorem look {next : Machine → Exec α} (h : (next m).Meets always blames ensures m) :
    (Exec.look next).Meets always blames ensures m :=
  ⟨h.always_of_mem, h.ensures_of_ok, h.blames_of_error⟩

theorem act (here : always m) {effect : Effect} {next : Exec α}
    (h : next.Meets always blames ensures (effect.apply m)) :
    (Exec.act effect next).Meets always blames ensures m where
  always_of_mem s hs := by
    rcases List.mem_cons.mp hs with rfl | hs
    · exact here
    · exact h.always_of_mem s hs
  ensures_of_ok run := h.ensures_of_ok run
  blames_of_error run := by
    obtain ⟨s, hs, blamed⟩ := h.blames_of_error run
    exact ⟨s, List.mem_cons_of_mem _ hs, blamed⟩

/-- Less may be ensured. -/
theorem mono {weaker : α → Machine → Prop} {x : Exec α} (h : x.Meets always blames ensures m)
    (le : ∀ a m', ensures a m' → weaker a m') : x.Meets always blames weaker m :=
  ⟨h.always_of_mem, fun run => le _ _ (h.ensures_of_ok run), h.blames_of_error⟩

/-- Less may hold on the way, and what holds on the way may be used for what is ensured. -/
theorem imp {looser : Machine → Prop} {weaker : α → Machine → Prop} {x : Exec α}
    (h : x.Meets always blames ensures m) (le : ∀ s, always s → looser s)
    (le' : ∀ a m', always m' → ensures a m' → weaker a m') : x.Meets looser blames weaker m where
  always_of_mem s hs := le s (h.always_of_mem s hs)
  ensures_of_ok run := by
    have there := h.always_of_mem _ (x.run_mem_states m)
    rw [run] at there
    exact le' _ _ there (h.ensures_of_ok run)
  blames_of_error := h.blames_of_error

/-- What is known of an execution from two sides. -/
theorem and {always' : Machine → Prop} {blames' : Fault → Machine → Prop}
    {ensures' : α → Machine → Prop} {x : Exec α} (h : x.Meets always blames ensures m)
    (h' : x.Meets always' blames' ensures' m) :
    x.Meets (fun s => always s ∧ always' s) blames (fun a m' => ensures a m' ∧ ensures' a m') m where
  always_of_mem s hs := ⟨h.always_of_mem s hs, h'.always_of_mem s hs⟩
  ensures_of_ok run := ⟨h.ensures_of_ok run, h'.ensures_of_ok run⟩
  blames_of_error := h.blames_of_error

/-- What every effect keeps is carried past an execution. -/
theorem frame {x : Exec α} (h : x.Meets always blames ensures m) {P : Machine → Prop}
    (keeps : ∀ (effect : Effect) (m : Machine), P m → P (effect.apply m)) (start : P m) :
    x.Meets always blames (fun a m' => ensures a m' ∧ P m') m where
  always_of_mem := h.always_of_mem
  ensures_of_ok run := by
    have kept := x.run_of_forall_effect keeps start
    rw [run] at kept
    exact ⟨h.ensures_of_ok run, kept⟩
  blames_of_error := h.blames_of_error

theorem asks (here : always m) (f : Machine → α) :
    (Exec.asks f).Meets always blames (fun a m' => a = f m ∧ m = m') m :=
  .look (.done here ⟨rfl, rfl⟩)

theorem asksOrRaises {f : Machine → Except Fault α} (here : always m)
    (ok : ∀ a, f m = .ok a → ensures a m) (error : ∀ fault, f m = .error fault → blames fault m) :
    (Exec.asksOrRaises f).Meets always blames ensures m := by
  refine .look ?_
  cases answer : f m with
  | ok a => exact .done here (ok a answer)
  | error fault => exact .raise here (error fault answer)

theorem perform {effect : Effect} (here : always m) (there : always (effect.apply m)) :
    (Exec.perform effect).Meets always blames (fun _ m' => m' = effect.apply m) m :=
  .act here (.done there rfl)

/-- The step of an event is recorded, or the limit on the number of steps is to blame. -/
theorem record {event : Event} (here : always m) (there : always ((Effect.record event).apply m))
    (limit : ∀ limit, blames (.stepLimit limit) m) :
    (ScriptTrace.record event).Meets always blames
      (fun _ m' => m' = (Effect.record event).apply m) m := by
  refine .look ?_
  cases m.recorder.reached? with
  | some k => exact .raise here (limit k)
  | none => exact .perform here there

/-- One execution after another, where the second hands a fault on as it is. -/
theorem attempt {ensures' : β → Machine → Prop} {x : Exec α}
    {next : Except Fault α → Exec β} (first : x.Meets always blames ensures m)
    (ok : ∀ a m', always m' → ensures a m' → (next (.ok a)).Meets always blames ensures' m')
    (error : ∀ fault m', always m' →
      (next (.error fault)).Meets always (fun other _ => other = fault) (fun _ _ => False) m') :
    (x.attempt next).Meets always blames ensures' m := by
  have there : always (x.run m).2 := first.always_of_mem _ (x.run_mem_states m)
  rcases outcome : x.run m with ⟨fault | a, m'⟩
  · rw [outcome] at there
    have second := error fault m' there
    refine ⟨fun s hs => ?_, fun run => ?_, fun run => ?_⟩
    · rcases mem_states_attempt hs with hs | hs
      · exact first.always_of_mem s hs
      · rw [outcome] at hs
        exact second.always_of_mem s hs
    · rw [run_attempt, outcome] at run
      exact (second.ensures_of_ok run).elim
    · rw [run_attempt, outcome] at run
      obtain ⟨-, -, rfl⟩ := second.blames_of_error run
      obtain ⟨s, hs, blamed⟩ := first.blames_of_error outcome
      exact ⟨s, mem_states_attempt_left next hs, blamed⟩
  · rw [outcome] at there
    have second := ok a m' there (first.ensures_of_ok outcome)
    refine ⟨fun s hs => ?_, fun run => ?_, fun run => ?_⟩
    · rcases mem_states_attempt hs with hs | hs
      · exact first.always_of_mem s hs
      · rw [outcome] at hs
        exact second.always_of_mem s hs
    · rw [run_attempt, outcome] at run
      exact second.ensures_of_ok run
    · rw [run_attempt, outcome] at run
      obtain ⟨s, hs, blamed⟩ := second.blames_of_error run
      refine ⟨s, mem_states_attempt_right ?_, blamed⟩
      rwa [outcome]

theorem bind {ensures' : β → Machine → Prop} {x : Exec α} {next : α → Exec β}
    (first : x.Meets always blames ensures m)
    (each : ∀ a m', always m' → ensures a m' → (next a).Meets always blames ensures' m') :
    (x >>= next).Meets always blames ensures' m := by
  show (x.bind next).Meets always blames ensures' m
  rw [bind_eq_attempt]
  exact first.attempt each fun fault m' there => .raise there rfl

end Meets

end Exec

end ScriptTrace
