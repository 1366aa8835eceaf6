import ScriptTrace.Exec.Execute
import ScriptTrace.Parse

/-!
# Traces

The trace of a script is the list of the steps of its run, the fault that stopped it, if one did,
and the names that were left on the call stack.

* `Trace`: the trace, with `Trace.toJson`.
* `runProgram`: the trace of a program.
* `runSource`: the trace of a script.
-/

namespace ScriptTrace

/-- What a run leaves. -/
structure Trace where
  steps : Array Step
  fault : Option Fault
  finalCallStack : List String

namespace Trace

/-- Whether a fault stopped the run. -/
def isHalted (t : Trace) : Bool :=
  t.fault.isSome

/-- A trace as data. -/
def toJson (t : Trace) : Json :=
  .obj [("steps", .arr (t.steps.toList.map Step.toJson)),
    ("fault", (t.fault.map Fault.toJson).getD .null),
    ("finalCallStack", .strings t.finalCallStack)]

end Trace

/-- The run of a program: the frame of the script, the declarations, and then the statements. -/
def runScript (config : Config) (program : Program) : Exec Unit := do
  record (.enterScript config.globalFrameName)
  hoist .script program.body
  executeStatements program config.callDepthLimit program.body

/-- The trace of a program. -/
def runProgram (config : Config) (program : Program) : Trace :=
  match (runScript config program).run (.initial config) with
  | (.ok _, m) => ⟨m.recorder.steps, none, m.stack.names⟩
  | (.error fault, m) =>
    ⟨(m.recorder.halt fault m.siteOfFault).steps, some fault, m.stack.names⟩

/-- The trace of a script. -/
def runSource (config : Config) (source : String) : Except ParseError Trace := do
  return runProgram config (← parseScript source)

end ScriptTrace
