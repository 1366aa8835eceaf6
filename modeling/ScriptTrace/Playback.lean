import ScriptTrace.Machine.Step

/-!
# Playing a trace back

A playback holds the steps of a trace and how many of them have been shown.  It moves over the steps
one by one in both directions and stops at the two ends.

* `Playback`: the steps with the position, which is never beyond them.
* `Playback.next`, `Playback.previous`, `Playback.reset`: the moves.
* `Playback.executed`: the steps shown so far.
-/

namespace ScriptTrace

/-- Steps, and how many of them have been shown. -/
structure Playback where
  steps : Array Step
  position : Nat
  position_le : position ≤ steps.size

namespace Playback

/-- The playback of steps from the beginning. -/
def load (steps : Array Step) : Playback :=
  ⟨steps, 0, Nat.zero_le _⟩

/-- The playback without steps, which a reset leaves. -/
def reset : Playback :=
  load #[]

/-- The step that comes next. -/
def upcoming? (p : Playback) : Option Step :=
  p.steps[p.position]?

/-- Shows the next step, if there is one. -/
def next (p : Playback) : Playback :=
  if h : p.position < p.steps.size then ⟨p.steps, p.position + 1, h⟩ else p

/-- Whether a step can be taken back. -/
def canGoBack (p : Playback) : Bool :=
  0 < p.position

/-- Takes the last step back, if one has been shown. -/
def previous (p : Playback) : Playback :=
  ⟨p.steps, p.position - 1, Nat.le_trans (Nat.sub_le _ _) p.position_le⟩

/-- The number of steps. -/
def size (p : Playback) : Nat :=
  p.steps.size

/-- Whether there are no steps. -/
def isEmpty (p : Playback) : Bool :=
  p.steps.isEmpty

/-- Whether all steps have been shown. -/
def isFinished (p : Playback) : Bool :=
  p.position == p.steps.size

/-- The steps shown so far. -/
def executed (p : Playback) : List Step :=
  p.steps.toList.take p.position

/-- The step shown last. -/
def current? (p : Playback) : Option Step :=
  if p.position = 0 then none else p.steps[p.position - 1]?

end Playback

end ScriptTrace
