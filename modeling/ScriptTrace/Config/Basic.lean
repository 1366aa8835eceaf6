/-!
# Configuration of a run

How deep calls may nest, how many steps a trace may have, and what the bottom frame is called.

* `Config`: the settings, with their defaults.
* `Config.callDepthLimit`: the bound on the call stack that a run enforces.
* `Config.validate`: which settings are refused, and why.
-/

namespace ScriptTrace

/-- The settings of a run. -/
structure Config where
  /-- The largest number of frames on the call stack, that of the script included. -/
  maxCallDepth : Nat := 128
  /-- The largest number of steps before the one that reports a fault. -/
  maxSteps : Option Nat := none
  /-- The name of the frame of the script. -/
  globalFrameName : String := "Global"
  deriving DecidableEq, Repr

/-- Why settings are refused. -/
inductive InvalidConfig where
  | noRoom
  | tooDeep
  | emptyName
  deriving DecidableEq, Repr

namespace Config

/-- The largest bound on the call stack that is accepted. -/
def deepestCall : Nat := 256

/-- The bound on the call stack that a run enforces, for settings that were not validated too. -/
def callDepthLimit (c : Config) : Nat :=
  min c.maxCallDepth deepestCall

/-- The first reason to refuse settings, if there is one. -/
def validate (c : Config) : Except InvalidConfig Unit :=
  if c.maxCallDepth = 0 then .error .noRoom
  else if deepestCall < c.maxCallDepth then .error .tooDeep
  else if c.globalFrameName.isEmpty then .error .emptyName
  else .ok ()

end Config

/-- What is said about refused settings. -/
def InvalidConfig.message : InvalidConfig → String
  | .noRoom => "max_call_depth must leave room for the global frame"
  | .tooDeep => "max_call_depth must not exceed " ++ toString Config.deepestCall
  | .emptyName => "global_frame_name must not be empty"

end ScriptTrace
