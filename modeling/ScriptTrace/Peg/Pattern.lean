/-!
# Patterns with ordered choice

A grammar here is a set of named rules, each with a pattern.  A pattern is matched at a place of a
text and either takes a stretch of the text from there on or fails; a choice takes its first
alternative that matches and never comes back to the others.

Blanks and comments between the parts of a sequence are skipped, except inside the rules that spell
the words of the language.  Which rules skip, and which leave a node in the tree of a match, is
their kind.

* `CharClass`: sets of characters.
* `Pattern`: what a rule matches.
* `Kind`: how a rule is matched.
* `Grammar`: rules with their patterns and kinds.
-/

namespace ScriptTrace.Peg

/-- A set of characters. -/
inductive CharClass where
  | any
  | letter
  | alphanumeric
  | digit
  | hexDigit
  deriving DecidableEq, Repr

/-- Whether a character is in a set.  All sets but the first hold ASCII characters only. -/
def CharClass.contains (k : CharClass) (c : Char) : Bool :=
  match k with
  | .any => true
  | .letter => c.isAlpha
  | .alphanumeric => c.isAlphanum
  | .digit => c.isDigit
  | .hexDigit => c.isDigit || ('a' ≤ c && c ≤ 'f') || ('A' ≤ c && c ≤ 'F')

/-- What a rule matches.  `ρ` is the type of the names of rules. -/
inductive Pattern (ρ : Type) where
  /-- Exactly these characters. -/
  | text (chars : List Char)
  /-- One character of a set. -/
  | char (k : CharClass)
  /-- Nothing, at the beginning of the text. -/
  | atStart
  /-- Nothing, at the end of the text. -/
  | atEnd
  /-- What another rule matches. -/
  | rule (name : ρ)
  /-- One pattern and then another, with blanks skipped between them where the mode says so. -/
  | seq (first second : Pattern ρ)
  /-- The first of two patterns that matches. -/
  | choice (first second : Pattern ρ)
  /-- A pattern as many times as it matches, with blanks skipped between the times. -/
  | many (item : Pattern ρ)
  /-- A pattern, or nothing where it fails. -/
  | optional (item : Pattern ρ)
  /-- Nothing, at a place where a pattern fails. -/
  | absent (item : Pattern ρ)
  deriving DecidableEq, Repr

namespace Pattern

variable {ρ : Type}

/-- One of several patterns, the first that matches. -/
def oneOf (first : Pattern ρ) : List (Pattern ρ) → Pattern ρ
  | [] => first
  | next :: rest => .choice first (oneOf next rest)

/-- Several patterns, one after the other. -/
def inOrder (first : Pattern ρ) : List (Pattern ρ) → Pattern ρ
  | [] => first
  | next :: rest => .seq first (inOrder next rest)

/-- A pattern one or more times. -/
def oneOrMore (item : Pattern ρ) : Pattern ρ :=
  .seq item (.many item)

/-- The number of constructors of a pattern. -/
def size : Pattern ρ → Nat
  | .text _ | .char _ | .atStart | .atEnd | .rule _ => 1
  | .seq a b | .choice a b => a.size + b.size + 1
  | .many a | .optional a | .absent a => a.size + 1

end Pattern

/-- How blanks between the parts of a sequence are treated, and whether rules leave nodes. -/
inductive Mode where
  /-- Blanks are skipped. -/
  | free
  /-- Blanks are not skipped, and the rules called leave no nodes. -/
  | atomic
  /-- Blanks are not skipped, and the rules called leave nodes. -/
  | compound
  deriving DecidableEq, Repr

/-- How a rule is matched. -/
inductive Kind where
  /-- In the mode of the caller, with a node. -/
  | normal
  /-- In the mode of the caller, without a node: the same as its pattern. -/
  | silent
  /-- With a node, its pattern in atomic mode. -/
  | atomic
  /-- With a node, all of it in compound mode. -/
  | compound
  /-- Without a node, its pattern in atomic mode: blanks and comments. -/
  | trivia
  deriving DecidableEq, Repr

namespace Kind

/-- Whether a rule leaves a node, and is named in a report of failure. -/
def isVisible : Kind → Bool
  | .normal | .atomic | .compound => true
  | .silent | .trivia => false

/-- The mode in which a rule itself stands, given the mode of its caller. -/
def outer (mode : Mode) : Kind → Mode
  | .compound => .compound
  | _ => mode

/-- The mode in which the pattern of a rule is matched, given the mode of its caller. -/
def inner (mode : Mode) : Kind → Mode
  | .normal | .silent => mode
  | .atomic | .trivia => .atomic
  | .compound => .compound

end Kind

/-- Rules with their patterns and kinds. -/
structure Grammar (ρ : Type) where
  kind : ρ → Kind
  body : ρ → Pattern ρ
  /-- What is skipped between the parts of a sequence. -/
  trivia : Pattern ρ
  /-- All rules, in the order in which a report of failure names them. -/
  rules : List ρ

end ScriptTrace.Peg
