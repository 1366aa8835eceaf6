import ScriptTrace.Machine.Scope

/-!
# The call stack

A frame holds the name of a call, the function that was called and the scope of the call, so the
stack of names and the stack of scopes always have the same height.  The bottom frame, that of the
script itself, is never removed.

* `Frame`, `Stack`: frames, the running one first.
* `Stack.names`, `Stack.scopes`: names and scopes from the bottom up.
-/

namespace ScriptTrace

/-- One call. -/
structure Frame where
  name : String
  function : Option FunctionId
  scope : ScopeId
  deriving DecidableEq, Repr

/-- The frames of a run, the running one first. -/
structure Stack where
  frames : List Frame := []
  deriving DecidableEq, Repr

namespace Stack

/-- The frame that is running. -/
def running? (s : Stack) : Option Frame :=
  s.frames.head?

/-- Puts a frame on top. -/
def push (s : Stack) (frame : Frame) : Stack :=
  ⟨frame :: s.frames⟩

/-- Takes the running frame off, unless it is the only one. -/
def pop (s : Stack) : Stack :=
  match s.frames with
  | _ :: next :: rest => ⟨next :: rest⟩
  | _ => s

/-- On a stack that is not empty, `pop` undoes `push`. -/
theorem pop_push {s : Stack} (frame : Frame) (h : s.frames ≠ []) : (s.push frame).pop = s := by
  obtain ⟨frames⟩ := s
  cases frames with
  | nil => exact absurd rfl h
  | cons _ _ => rfl

/-- The frame that `pop` takes off. -/
def popped? (s : Stack) : Option Frame :=
  match s.frames with
  | top :: _ :: _ => some top
  | _ => none

/-- The number of frames. -/
def depth (s : Stack) : Nat :=
  s.frames.length

/-- The names of the frames from the bottom up. -/
def names (s : Stack) : List String :=
  s.frames.reverse.map Frame.name

/-- The scopes of the frames from the bottom up. -/
def scopes (s : Stack) : List ScopeId :=
  s.frames.reverse.map Frame.scope

end Stack

end ScriptTrace
