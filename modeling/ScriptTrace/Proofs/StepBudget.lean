import ScriptTrace.Proofs.Orderly
import ScriptTrace.Proofs.Recording

/-!
# A limit on the number of steps cuts the trace

The limit on the number of steps is a setting of a run.  This file compares the run of a program
without a limit with the run of the same program under a limit `k`: the second is the first, cut
off where step `k` would be recorded.

The two runs go through the same states as long as the limit leaves room.  Once it does not,
`record` raises the limit as a fault; from there on the run under the limit only unwinds, which
records nothing, while the run without a limit may still go on.  So at the end of an execution there
are two cases, and `CutAt` lists them.

The property `Truncates` of an execution is that its two runs compare in this way from every state
that is still within the limit.  It passes from two executions to one after the other
(`Truncates.attempt`) when the second only unwinds after a limit; the frame of a call is such a case.

* `Exec.Orderly.truncates`: every orderly execution is cut in this way.
* `runProgram_cut_at_limit`: the comparison for traces.
-/

namespace ScriptTrace

/-! ## The state under another limit -/

namespace Machine

/-- The state with another limit on the number of steps. -/
def withLimit (m : Machine) (limit : Option Nat) : Machine :=
  { m with recorder := { m.recorder with limit } }

@[simp] theorem steps_withLimit (m : Machine) (limit : Option Nat) :
    (m.withLimit limit).recorder.steps = m.recorder.steps := rfl

theorem withLimit_of_limit_eq {m : Machine} {limit : Option Nat}
    (h : m.recorder.limit = limit) : m.withLimit limit = m := by
  subst h
  rfl

/-- Effects do not look at the limit. -/
theorem apply_withLimit (effect : Effect) (m : Machine) (limit : Option Nat) :
    effect.apply (m.withLimit limit) = (effect.apply m).withLimit limit := by
  cases effect <;> rfl

theorem reached?_withLimit (m : Machine) (k : Nat) :
    (m.withLimit (some k)).recorder.reached? =
      if k ≤ m.recorder.steps.size then some k else none := by
  by_cases h : k ≤ m.recorder.steps.size <;>
    simp [withLimit, Recorder.reached?, Option.filter, h]

end Machine

/-! ## Two runs side by side -/

/-- How the outcome `cut` of a run under the limit `k` compares with the outcome `full` of the run
without a limit. -/
inductive CutAt {α : Type} (k : Nat) (full cut : Except Fault α × Machine) : Prop
  /-- All steps are within the limit, and the outcomes agree. -/
  | within (size : full.2.recorder.steps.size ≤ k)
      (same : cut = (full.1, full.2.withLimit (some k)))
  /-- Some step is beyond the limit, and the first `k` steps are left. -/
  | beyond (size : k < full.2.recorder.steps.size) (fault : cut.1 = .error (.stepLimit k))
      (steps : cut.2.recorder.steps.toList = full.2.recorder.steps.toList.take k)

namespace Exec

variable {α β : Type}

/-- The run under a limit is the run without one, cut off at the limit. -/
def Truncates (x : Exec α) : Prop :=
  ∀ (m : Machine) (k : Nat), m.recorder.steps.size ≤ k →
    CutAt k (x.run (m.withLimit none)) (x.run (m.withLimit (some k)))

/-- After the fault that there may be no more steps, `next` records nothing and ends with the same
fault. -/
def PassesLimitOn (next : Except Fault α → Exec β) : Prop :=
  ∀ (k : Nat) (m : Machine),
    ((next (.error (.stepLimit k))).run m).1 = .error (.stepLimit k) ∧
      ((next (.error (.stepLimit k))).run m).2.recorder.steps = m.recorder.steps

namespace Truncates

theorem done (result : α) : (Exec.done result).Truncates :=
  fun _ _ size => .within size rfl

theorem raise (fault : Fault) : (Exec.raise fault : Exec α).Truncates :=
  fun _ _ size => .within size rfl

theorem look {next : Machine → Exec α}
    (blind : ∀ (m : Machine) (r : Recorder), next { m with recorder := r } = next m)
    (each : ∀ m, (next m).Truncates) : (Exec.look next).Truncates := by
  intro m k size
  have full : next (m.withLimit none) = next m := blind m _
  have cut : next (m.withLimit (some k)) = next m := blind m _
  rw [Exec.run, Exec.run, full, cut]
  exact each m m k size

theorem asks {f : Machine → α}
    (blind : ∀ (m : Machine) (r : Recorder), f { m with recorder := r } = f m) :
    (Exec.asks f).Truncates :=
  look (fun m r => congrArg Exec.done (blind m r)) fun _ => done _

/-- An effect that is no record leaves the number of steps alone. -/
theorem perform {effect : Effect}
    (quiet : ∀ m, (effect.apply m).recorder.steps = m.recorder.steps) :
    (Exec.perform effect).Truncates := by
  intro m k size
  refine .within ?_ ?_
  · show (effect.apply (m.withLimit none)).recorder.steps.size ≤ k
    rwa [quiet, Machine.steps_withLimit]
  · show ((Except.ok (), effect.apply (m.withLimit (some k))) : Except Fault Unit × Machine) =
      (.ok (), (effect.apply (m.withLimit none)).withLimit (some k))
    rw [Machine.apply_withLimit, Machine.apply_withLimit]
    rfl

/-- The one place where the two runs can part. -/
theorem record (event : Event) : (record event).Truncates := by
  intro m k size
  have full : (ScriptTrace.record event).run (m.withLimit none) =
      (.ok (), (Effect.record event).apply (m.withLimit none)) := run_record_of_room rfl
  have pushed : ((Effect.record event).apply (m.withLimit none)).recorder.steps.toList =
      m.recorder.steps.toList ++ [⟨_, event.kind, event.detail, some event.data⟩] :=
    Recorder.toList_steps_append _ _ _ _
  have grown : ((Effect.record event).apply (m.withLimit none)).recorder.steps.size =
      m.recorder.steps.size + 1 := Array.size_push _
  rw [full]
  by_cases room : k ≤ m.recorder.steps.size
  · have here : m.recorder.steps.size = k := Nat.le_antisymm size room
    have reached : (m.withLimit (some k)).recorder.reached? = some k := by
      rw [Machine.reached?_withLimit, if_pos room]
    rw [run_record_of_reached reached]
    refine .beyond (by rw [grown]; omega) rfl ?_
    rw [pushed, ← here, ← Array.length_toList, List.take_left]
    rfl
  · have reached : (m.withLimit (some k)).recorder.reached? = none := by
      rw [Machine.reached?_withLimit, if_neg room]
    rw [run_record_of_room reached]
    refine .within (by rw [grown]; omega) ?_
    rw [Machine.apply_withLimit, Machine.apply_withLimit]
    rfl

/-- One execution after another. -/
theorem attempt {x : Exec α} {next : Except Fault α → Exec β} (first : x.Truncates)
    (each : ∀ r, (next r).Truncates) (passes : PassesLimitOn next) :
    (x.attempt next).Truncates := by
  intro m k size
  rw [run_attempt, run_attempt]
  have unlimited : (x.run (m.withLimit none)).2.recorder.limit = none := x.limit_run _
  rcases first m k size with ⟨within, same⟩ | ⟨beyond, fault, steps⟩
  · rw [same]
    have second := each (x.run (m.withLimit none)).1 (x.run (m.withLimit none)).2 k within
    rwa [Machine.withLimit_of_limit_eq unlimited] at second
  · -- the run without a limit may go on, but what it records comes after the first `k` steps
    obtain ⟨rest, longer⟩ := (next (x.run (m.withLimit none)).1).steps_prefix_run
      (x.run (m.withLimit none)).2
    obtain ⟨same, quiet⟩ := passes k (x.run (m.withLimit (some k))).2
    rw [← Array.length_toList] at beyond
    rw [fault]
    refine .beyond ?_ same ?_
    · rw [← Array.length_toList, ← longer, List.length_append]
      omega
    · rw [quiet, steps, ← longer, List.take_append_of_le_length (Nat.le_of_lt beyond)]

theorem bind {x : Exec α} {next : α → Exec β} (first : x.Truncates)
    (each : ∀ a, (next a).Truncates) : (x >>= next).Truncates := by
  show (x.bind next).Truncates
  rw [bind_eq_attempt]
  refine first.attempt ?_ fun k m => ⟨rfl, rfl⟩
  rintro (fault | a)
  · exact raise fault
  · exact each a

/-- A body in a frame of its own: what unwinds the frame records nothing. -/
theorem inFrame (name : String) (id : FunctionId) {body : ScopeId → ScopeId → Exec Unit}
    (each : ∀ scope outer, (body scope outer).Truncates) :
    (inFrame name id body).Truncates := by
  rw [ScriptTrace.inFrame]
  refine bind (asks fun _ _ => rfl) fun depth => ?_
  refine bind (record _) fun _ => ?_
  refine bind (asks fun _ _ => rfl) fun scope => ?_
  refine bind (asks fun _ _ => rfl) fun outer => ?_
  refine bind (perform fun _ => rfl) fun _ => ?_
  refine attempt (each scope outer) ?_ fun k m => ⟨rfl, rfl⟩
  rintro (fault | _)
  · refine bind (perform fun _ => rfl) fun _ => ?_
    exact bind (perform fun _ => rfl) fun _ => raise fault
  · refine bind (perform fun _ => rfl) fun _ => ?_
    exact bind (asks fun _ _ => rfl) fun depth => record _

end Truncates

/-- **Every orderly execution is cut off at the limit.** -/
theorem Orderly.truncates {allowed : Effect → Prop} {x : Exec α} (h : x.Orderly allowed) :
    x.Truncates := by
  induction h with
  | done result => exact .done result
  | raise fault _ => exact .raise fault
  | look blind _ each => exact .look blind each
  | record event _ => exact .record event
  | perform effect isLocal _ =>
    refine .perform fun m => ?_
    cases effect with
    | record event => nomatch isLocal
    | _ => rfl
  | bind _ _ first each => exact first.bind each
  | inFrame name id _ _ each => exact .inFrame name id each

end Exec

/-! ## Traces -/

/-- **A limit on the number of steps cuts the trace.**  Compare the trace of a program without a
limit with its trace under the limit `k`.  If the first has at most `k` steps besides the report of
a fault, the two are equal.  Otherwise the second has the first `k` steps of the first and then one
more, numbered `k`, which reports that the limit is exceeded. -/
theorem runProgram_cut_at_limit (config : Config) (program : Program) (k : Nat) :
    let full := runProgram { config with maxSteps := none } program
    let cut := runProgram { config with maxSteps := some k } program
    (full.ongoing.length ≤ k → cut = full) ∧
      (k < full.ongoing.length →
        cut.fault = some (.stepLimit k) ∧
          ∃ last : Step, cut.steps.toList = full.steps.toList.take k ++ [last] ∧
            last.kind = .throwRangeError ∧ last.id = "step-" ++ toString k) := by
  intro full cut
  let fullRun := (runScript config program).run ((Machine.initial config).withLimit none)
  let cutRun := (runScript config program).run ((Machine.initial config).withLimit (some k))
  have compare : CutAt k fullRun cutRun :=
    (orderly_runScript config program).truncates (.initial config) k (Nat.zero_le k)
  have count : full.ongoing.length = fullRun.2.recorder.steps.size := by
    rw [ongoing_runProgram]
    exact Array.length_toList
  rcases compare with ⟨size, same⟩ | ⟨size, fault, steps⟩
  · refine ⟨fun _ => ?_, fun h => by omega⟩
    rcases outcome : fullRun with ⟨fault | _, m⟩
    · rw [outcome] at same
      have hfull : full = _ := runProgram_of_fault outcome
      have hcut : cut = _ := runProgram_of_fault same
      rw [hfull, hcut]
      rfl
    · rw [outcome] at same
      have hfull : full = _ := runProgram_of_result outcome
      have hcut : cut = _ := runProgram_of_result same
      rw [hfull, hcut]
      rfl
  · refine ⟨fun h => by omega, fun long => ?_⟩
    have hcut : cut = _ := runProgram_of_fault (Prod.ext fault rfl)
    have first : full.steps.toList.take k = cutRun.2.recorder.steps.toList := by
      obtain ⟨rest, report⟩ :=
        ongoing_prefix_runProgram { config with maxSteps := none } program
      rw [← report, List.take_append_of_le_length (Nat.le_of_lt long), ongoing_runProgram]
      exact steps.symm
    have length : cutRun.2.recorder.steps.size = k := by
      rw [← Array.length_toList, steps, List.length_take, Array.length_toList]
      omega
    obtain ⟨last, append, number, reports⟩ :=
      cutRun.2.recorder.exists_report (.stepLimit k) cutRun.2.siteOfFault
    rw [length] at number
    rw [first, hcut]
    exact ⟨rfl, last, append, reports.kind_eq, number⟩

end ScriptTrace
