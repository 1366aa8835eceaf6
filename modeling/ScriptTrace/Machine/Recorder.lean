import ScriptTrace.Machine.Fault

/-!
# The recorder

The steps of a run so far, and how many there may be.  Steps are numbered from zero in the order of
recording.  The step that reports a fault is recorded whatever the limit.

* `Recorder.record`: one more step, or a fault when the limit is reached.
* `Recorder.halt`: the step that reports a fault.
-/

namespace ScriptTrace

/-- The steps so far, and the limit on their number. -/
structure Recorder where
  limit : Option Nat := none
  steps : Array Step := #[]

namespace Recorder

/-- The identifier of the step with a number. -/
def stepId (n : Nat) : String :=
  "step-" ++ toString n

/-- Puts a step at the end. -/
def append (r : Recorder) (kind : StepKind) (detail : String) (data : Option Json) : Recorder :=
  { r with steps := r.steps.push ⟨stepId r.steps.size, kind, detail, data⟩ }

/-- The limit, when it does not leave room for another step. -/
def reached? (r : Recorder) : Option Nat :=
  r.limit.filter fun limit => limit ≤ r.steps.size

/-- Records a step, if the limit leaves room for it. -/
def record (r : Recorder) (kind : StepKind) (detail : String) (data : Option Json) :
    Except Fault Recorder :=
  match r.reached? with
  | some limit => .error (.stepLimit limit)
  | none => .ok (r.append kind detail data)

/-- Records the step that reports a fault, with the names on the call stack where it happened. -/
def halt (r : Recorder) (fault : Fault) (callStack : List String) : Recorder :=
  r.append fault.haltingKind (fault.text ++ "; execution halted")
    (some (.obj [("kind", .str fault.kind.name), ("message", .str fault.text),
      ("callStack", .strings callStack)]))

end Recorder

end ScriptTrace
