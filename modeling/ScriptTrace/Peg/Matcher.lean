import ScriptTrace.Peg.Pattern
import ScriptTrace.Peg.Node
import ScriptTrace.Peg.FailureLog

/-!
# Matching

A matcher takes a place and either moves on to a later one, with the nodes of the rules matched on
the way, or fails.  It carries the failure log along, and its outcome does not depend on the log.

`Grammar.run` turns a pattern into a matcher.  It is a recursion on a number that bounds how deeply
patterns are entered and how often they are repeated; the third outcome, `exhausted`, says that the
bound was too small.  A rule
that calls itself without having taken a character, or a repetition whose item takes nothing, has
this outcome under every bound.  For the bound that `Grammar.read` chooses, a grammar without such
rules never has it: between two characters that are taken, a rule is entered at most once, and
inside a rule the depth is at most the size of its pattern.

* `Outcome`: what a matcher answers.
* `Matcher.andThen`, `Matcher.orElse`, `Matcher.repeated`, `Matcher.absent`: the combinations.
* `Grammar.run`: the matcher of a pattern.
* `Grammar.read`: the match of a rule at the beginning of a text.
-/

namespace ScriptTrace.Peg

variable {ρ : Type}

/-- What a matcher answers. -/
inductive Outcome (ρ : Type) where
  /-- The nodes of the match and the place after it. -/
  | matched (nodes : List (Node ρ)) (place : Place)
  /-- No match. -/
  | failed
  /-- The bound on the depth was too small. -/
  | exhausted

/-- The outcome with nodes put in front. -/
def Outcome.prepend (nodes : List (Node ρ)) : Outcome ρ → Outcome ρ
  | .matched more place => .matched (nodes ++ more) place
  | .failed => .failed
  | .exhausted => .exhausted

/-- A matcher: from a place and the log so far to an outcome and the log after it. -/
abbrev Matcher (ρ : Type) := Place → FailureLog ρ → Outcome ρ × FailureLog ρ

namespace Matcher

/-- The match of nothing. -/
def nothing : Matcher ρ := fun p log =>
  (.matched [] p, log)

/-- The match of given characters. -/
def text (chars : List Char) : Matcher ρ := fun p log =>
  match p.eat? chars with
  | some q => (.matched [] q, log)
  | none => (.failed, log)

/-- The match of a character of a set. -/
def char (k : CharClass) : Matcher ρ := fun p log =>
  match p.rest with
  | [] => (.failed, log)
  | c :: rest =>
    if k.contains c then (.matched [] (Place.after p.offset c rest), log) else (.failed, log)

/-- The match of nothing under a condition on the place. -/
def when (condition : Place → Bool) : Matcher ρ := fun p log =>
  if condition p then (.matched [] p, log) else (.failed, log)

/-- One matcher and then another. -/
def andThen (first second : Matcher ρ) : Matcher ρ := fun p log =>
  match first p log with
  | (.matched nodes q, log) =>
    let (outcome, log) := second q log
    (outcome.prepend nodes, log)
  | answer => answer

/-- One matcher, or another where the first fails. -/
def orElse (first second : Matcher ρ) : Matcher ρ := fun p log =>
  match first p log with
  | (.failed, log) => second p log
  | answer => answer

/-- Nothing, where a matcher fails. -/
def absent (item : Matcher ρ) : Matcher ρ := fun p log =>
  match item p log with
  | (.matched _ _, log) => (.failed, log)
  | (.failed, log) => (.matched [] p, log)
  | (.exhausted, log) => (.exhausted, log)

/-- A matcher again and again until it fails, at most `bound` times. -/
def iterate (item : Matcher ρ) : Nat → Matcher ρ
  | 0, _, log => (.exhausted, log)
  | bound + 1, p, log =>
    match item p log with
    | (.matched nodes q, log) =>
      let (outcome, log) := iterate item bound q log
      (outcome.prepend nodes, log)
    | (.failed, log) => (.matched [] p, log)
    | (.exhausted, log) => (.exhausted, log)

/-- A first item and then further ones, or nothing; the further ones are tried at most `bound`
times. -/
def repeated (bound : Nat) (first next : Matcher ρ) : Matcher ρ :=
  (first.andThen (iterate next bound)).orElse nothing

/-- A rule around the matcher of its pattern.  A match becomes a node, unless the mode around the
rule is atomic; a failure is noted, unless that mode is atomic or the failure is what a lookahead
asks for. -/
def asRule (rule : ρ) (mode : Mode) (negated : Bool) (body : Matcher ρ) : Matcher ρ := fun p log =>
  match body p log with
  | (.matched nodes q, after) =>
    if mode = .atomic then (.matched nodes q, after)
    else (.matched [.mk rule p.offset q.offset (p.upTo q.offset) nodes] q, after)
  | (.failed, after) =>
    if mode = .atomic || negated then (.failed, after)
    else (.failed, after.note rule p.offset (log.countAt p.offset))
  | (.exhausted, after) => (.exhausted, after)

end Matcher

/-- What surrounds a pattern: the mode, and whether an odd number of lookaheads that ask for
failure stand around it. -/
structure Surroundings where
  mode : Mode := .free
  negated : Bool := false
  deriving DecidableEq, Repr

namespace Grammar

/-- The matcher of a pattern, entered to at most a given depth. -/
def run (g : Grammar ρ) : Nat → Surroundings → Pattern ρ → Matcher ρ
  | 0, _, _, _, log => (.exhausted, log)
  | depth + 1, around, pattern, p, log =>
    let skip : Matcher ρ :=
      if around.mode = .free then run g depth { around with mode := .atomic } g.trivia
      else Matcher.nothing
    match pattern with
    | .text chars => Matcher.text chars p log
    | .char k => Matcher.char k p log
    | .atStart => Matcher.when (fun q => q.offset == 0) p log
    | .atEnd => Matcher.when (fun q => q.rest.isEmpty) p log
    | .rule name =>
      let kind := g.kind name
      let body := run g depth { around with mode := kind.inner around.mode } (g.body name)
      if kind.isVisible then Matcher.asRule name (kind.outer around.mode) around.negated body p log
      else body p log
    | .seq a b => Matcher.andThen (run g depth around a) (skip.andThen (run g depth around b)) p log
    | .choice a b => Matcher.orElse (run g depth around a) (run g depth around b) p log
    | .many a =>
      Matcher.repeated depth (run g depth around a) (skip.andThen (run g depth around a)) p log
    | .optional a => Matcher.orElse (run g depth around a) Matcher.nothing p log
    | .absent a => Matcher.absent (run g depth { around with negated := !around.negated } a) p log

/-- The largest size of a pattern of the grammar. -/
def largestPattern (g : Grammar ρ) : Nat :=
  g.rules.foldl (fun n r => max n (g.body r).size) g.trivia.size

/-- A depth that is enough for a text: for every character and for the end, every rule once with
all of its pattern and the blanks inside it. -/
def depthFor (g : Grammar ρ) (source : List Char) : Nat :=
  (source.length + 1) * (g.rules.length + 2) * (g.largestPattern + 3)

/-- The match of a rule at the beginning of a text, with the log of failures.  It need not take the
whole text. -/
def read (g : Grammar ρ) (rule : ρ) (source : List Char) : Outcome ρ × FailureLog ρ :=
  g.run (g.depthFor source) {} (.rule rule) ⟨0, source⟩ {}

end Grammar

end ScriptTrace.Peg
