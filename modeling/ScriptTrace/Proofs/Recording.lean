import ScriptTrace.Trace

/-!
# What a run records

A run changes the recorder in one way only: the step of an event goes to its end.  So whatever
`Recorder.append` keeps for the steps of events holds at the end of every execution
(`run_of_forall_append`), and four facts follow:

* `limit_run`: the limit stays what it is.
* `steps_prefix_run`: earlier steps stay where they are.
* `numbered_run`: the identifiers of the steps count up from zero.
* `ongoing_run`: no step of a run reports a fault; only `Recorder.halt` records such a step.

They give the shape of a trace.  Without the report of a fault its steps are those of the run
(`ongoing_runProgram`); the report comes after them (`ongoing_prefix_runProgram`), and it is there
exactly when a fault stopped the run (`exists_isHalting_iff`).
-/

namespace ScriptTrace

/-- The step of an event never reports a fault. -/
theorem Event.isHalting_kind (event : Event) : event.kind.isHalting = false := by
  cases event <;> rfl

/-- The step that reports a fault always says so. -/
theorem Fault.isHalting_haltingKind (fault : Fault) : fault.haltingKind.isHalting = true := by
  cases fault <;> rfl

/-- A step that reports a fault with the names on a call stack. -/
structure Step.Reports (s : Step) (fault : Fault) (callStack : List String) : Prop where
  kind_eq : s.kind = fault.haltingKind
  faultKind : s.field? "kind" = some (.str fault.kind.name)
  message : s.field? "message" = some (.str fault.text)
  callStack : s.field? "callStack" = some (.strings callStack)

namespace Recorder

/-- The recorder after the step of an event. -/
def appendEvent (r : Recorder) (event : Event) : Recorder :=
  r.append event.kind event.detail (some event.data)

/-- The identifiers of the steps count up from zero. -/
def Numbered (r : Recorder) : Prop :=
  ∀ (i : Nat) (s : Step), r.steps[i]? = some s → s.id = stepId i

/-- No step reports a fault. -/
def Ongoing (r : Recorder) : Prop :=
  ∀ s ∈ r.steps, s.kind.isHalting = false

theorem toList_steps_append (r : Recorder) (kind : StepKind) (detail : String)
    (data : Option Json) :
    (r.append kind detail data).steps.toList =
      r.steps.toList ++ [⟨stepId r.steps.size, kind, detail, data⟩] :=
  Array.toList_push

/-- The step of `halt` stands at the end, has the next number and reports the fault. -/
theorem exists_report (r : Recorder) (fault : Fault) (callStack : List String) :
    ∃ last : Step, (r.halt fault callStack).steps.toList = r.steps.toList ++ [last] ∧
      last.id = stepId r.steps.size ∧ last.Reports fault callStack :=
  ⟨_, r.toList_steps_append _ _ _, rfl, ⟨rfl, rfl, rfl, rfl⟩⟩

theorem Numbered.append {r : Recorder} (h : r.Numbered) (kind : StepKind) (detail : String)
    (data : Option Json) : (r.append kind detail data).Numbered := by
  intro i s hs
  change (r.steps.push _)[i]? = some s at hs
  rw [Array.getElem?_push] at hs
  split at hs
  · rename_i hi
    rw [← Option.some.inj hs, hi]
  · exact h i s hs

theorem Ongoing.appendEvent {r : Recorder} (h : r.Ongoing) (event : Event) :
    (r.appendEvent event).Ongoing := by
  intro s hs
  rcases Array.mem_push.mp hs with hs | rfl
  · exact h s hs
  · exact event.isHalting_kind

end Recorder

/-! ## Along a run -/

/-- An effect leaves the recorder alone or records an event. -/
theorem Effect.recorder_apply (effect : Effect) (m : Machine) :
    (effect.apply m).recorder = m.recorder ∨
      ∃ event, (effect.apply m).recorder = m.recorder.appendEvent event := by
  cases effect with
  | record event => exact Or.inr ⟨event, rfl⟩
  | _ => exact Or.inl rfl

namespace Exec

variable {α : Type}

/-- What the steps of events keep holds of the recorder at the end of a run. -/
theorem run_of_forall_append {P : Recorder → Prop}
    (keeps : ∀ (r : Recorder) (event : Event), P r → P (r.appendEvent event)) (x : Exec α)
    {m : Machine} (start : P m.recorder) : P (x.run m).2.recorder := by
  refine x.run_of_forall_effect (P := fun m => P m.recorder) ?_ start
  intro effect m h
  rcases effect.recorder_apply m with same | ⟨event, appended⟩
  · rwa [same]
  · rw [appended]
    exact keeps m.recorder event h

theorem limit_run (x : Exec α) (m : Machine) :
    (x.run m).2.recorder.limit = m.recorder.limit :=
  x.run_of_forall_append (P := fun r => r.limit = m.recorder.limit) (fun _ _ h => h) rfl

theorem steps_prefix_run (x : Exec α) (m : Machine) :
    m.recorder.steps.toList <+: (x.run m).2.recorder.steps.toList := by
  refine x.run_of_forall_append (P := fun r => m.recorder.steps.toList <+: r.steps.toList) ?_
    (List.prefix_refl _)
  intro r event h
  rw [Recorder.appendEvent, Recorder.toList_steps_append]
  exact h.trans (List.prefix_append _ _)

theorem numbered_run (x : Exec α) {m : Machine} (h : m.recorder.Numbered) :
    (x.run m).2.recorder.Numbered :=
  x.run_of_forall_append (fun _ _ h => h.append _ _ _) h

theorem ongoing_run (x : Exec α) {m : Machine} (h : m.recorder.Ongoing) :
    (x.run m).2.recorder.Ongoing :=
  x.run_of_forall_append (fun _ event h => h.appendEvent event) h

end Exec

/-! ## The steps of a trace -/

/-- The steps of a trace that do not report a fault. -/
def Trace.ongoing (t : Trace) : List Step :=
  t.steps.toList.filter fun s => !s.kind.isHalting

theorem Recorder.Ongoing.filter_eq {r : Recorder} (h : r.Ongoing) :
    (r.steps.toList.filter fun s => !s.kind.isHalting) = r.steps.toList := by
  refine List.filter_eq_self.mpr fun s hs => ?_
  rw [h s (Array.mem_toList_iff.mp hs)]
  rfl

section

variable {config : Config} {program : Program} {m : Machine}

theorem runProgram_of_result
    (h : (runScript config program).run (.initial config) = (.ok (), m)) :
    runProgram config program = ⟨m.recorder.steps, none, m.stack.names⟩ := by
  rw [runProgram, h]

theorem runProgram_of_fault {fault : Fault}
    (h : (runScript config program).run (.initial config) = (.error fault, m)) :
    runProgram config program =
      ⟨(m.recorder.halt fault m.siteOfFault).steps, some fault, m.stack.names⟩ := by
  rw [runProgram, h]

end

variable (config : Config) (program : Program)

theorem numbered_runScript :
    ((runScript config program).run (.initial config)).2.recorder.Numbered :=
  Exec.numbered_run _ fun i s h => by simp [Machine.initial] at h

theorem ongoing_runScript :
    ((runScript config program).run (.initial config)).2.recorder.Ongoing :=
  Exec.ongoing_run _ fun s h => by simp [Machine.initial] at h

/-- **Without the report of a fault, the steps of a trace are those of the run.** -/
theorem ongoing_runProgram :
    (runProgram config program).ongoing =
      ((runScript config program).run (.initial config)).2.recorder.steps.toList := by
  have hrun := (ongoing_runScript config program).filter_eq
  rcases h : (runScript config program).run (.initial config) with ⟨fault | _, m⟩
  · rw [h] at hrun
    obtain ⟨last, steps, -, reports⟩ := m.recorder.exists_report fault m.siteOfFault
    have halting : last.kind.isHalting = true := by
      rw [reports.kind_eq, fault.isHalting_haltingKind]
    rw [runProgram_of_fault h, Trace.ongoing, steps, List.filter_append, hrun]
    simp [halting]
  · rw [h] at hrun
    rw [runProgram_of_result h]
    exact hrun

/-- The report of a fault comes after all other steps. -/
theorem ongoing_prefix_runProgram :
    (runProgram config program).ongoing <+: (runProgram config program).steps.toList := by
  rw [ongoing_runProgram]
  rcases h : (runScript config program).run (.initial config) with ⟨fault | _, m⟩
  · rw [runProgram_of_fault h, Recorder.halt, Recorder.toList_steps_append]
    exact List.prefix_append _ _
  · have steps : (runProgram config program).steps = m.recorder.steps := by
      rw [runProgram_of_result h]
    exact steps ▸ List.prefix_refl _

/-- The identifiers of the steps of a trace count up from zero, the report of a fault included. -/
theorem numbered_runProgram {i : Nat} {s : Step}
    (hs : (runProgram config program).steps[i]? = some s) : s.id = Recorder.stepId i := by
  have numbered := numbered_runScript config program
  rcases h : (runScript config program).run (.initial config) with ⟨fault | _, m⟩
  · rw [h] at numbered
    rw [runProgram_of_fault h] at hs
    exact numbered.append _ _ _ i s hs
  · rw [h] at numbered
    rw [runProgram_of_result h] at hs
    exact numbered i s hs

/-- A fault stops the run exactly when a step reports one. -/
theorem exists_isHalting_iff :
    (∃ s ∈ (runProgram config program).steps, s.kind.isHalting = true) ↔
      (runProgram config program).fault.isSome = true := by
  have ongoing := ongoing_runScript config program
  rcases h : (runScript config program).run (.initial config) with ⟨fault | _, m⟩
  · obtain ⟨last, steps, -, reports⟩ := m.recorder.exists_report fault m.siteOfFault
    rw [runProgram_of_fault h]
    refine ⟨fun _ => rfl, fun _ => ⟨last, ?_, ?_⟩⟩
    · rw [← Array.mem_toList_iff, steps]
      exact List.mem_append_right _ (List.mem_singleton_self last)
    · rw [reports.kind_eq, fault.isHalting_haltingKind]
  · rw [h] at ongoing
    rw [runProgram_of_result h]
    refine ⟨?_, fun none => nomatch none⟩
    rintro ⟨s, hs, halting⟩
    rw [ongoing s hs] at halting
    exact nomatch halting

end ScriptTrace
