/-!
# What was expected where

While a text is matched, the log keeps the furthest offset at which a rule failed, and the rules
that failed there.  When the whole match fails, that is the most useful thing to report.

A rule that fails takes the place of the failures that it caused at the same offset: a failed
statement says more than each of the words that it could have begun with.  The exception is a rule
that caused a single failure: then that one failure is the more precise report, and the rule adds
nothing.

* `FailureLog`: offset and rules.
* `FailureLog.note`: the log after a rule has failed.
-/

namespace ScriptTrace.Peg

/-- The furthest offset of a failure, and the rules that failed there. -/
structure FailureLog (ρ : Type) where
  offset : Nat := 0
  rules : List ρ := []
  deriving DecidableEq, Repr

namespace FailureLog

variable {ρ : Type}

/-- The number of failures kept for an offset. -/
def countAt (log : FailureLog ρ) (offset : Nat) : Nat :=
  if log.offset = offset then log.rules.length else 0

/-- The log after a rule has failed at an offset, where `entry` is the number of failures that were
kept for that offset before the rule was tried. -/
def note (rule : ρ) (offset entry : Nat) (log : FailureLog ρ) : FailureLog ρ :=
  if log.countAt offset = entry + 1 then log
  else if offset < log.offset then log
  else if log.offset < offset then ⟨offset, [rule]⟩
  else ⟨offset, log.rules.take entry ++ [rule]⟩

end FailureLog

end ScriptTrace.Peg
