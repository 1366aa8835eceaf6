import ScriptTrace.Ast.Build
import ScriptTrace.Text.Excerpt
import ScriptTrace.Text.Quoted

/-!
# Parsing a script

A script is matched against the grammar and its tree turned into a program.  It is refused for one
of two reasons: the grammar does not accept it, and then the report names the rules that failed
furthest into the text; or it assigns to something that cannot be assigned to, and then the report
shows the target.

* `ParseError`: why a text is refused, with `ParseError.position` and `ParseError.message`.
* `parseRule`: the matched tree of any rule.
* `parseScript`: the program of a script.
* `treeDump`: the matched tree of a script as indented lines.
-/

namespace ScriptTrace

open Peg (Node)

/-- Why a text is refused. -/
inductive ParseError where
  /-- The grammar does not accept the text: the furthest offset of a failure, and the rules that
  failed there. -/
  | unmatched (offset : Nat) (expected : List Rule)
  /-- The matched tree has no syntax tree. -/
  | unbuildable (error : BuildError)
  deriving DecidableEq, Repr

/-- Names joined as in a sentence: `a`, `a or b`, `a, b, or c`. -/
def joinAlternatives : List String → String
  | [] => ""
  | [a] => a
  | [a, b] => a ++ " or " ++ b
  | names => ", ".intercalate names.dropLast ++ ", or " ++ names.getLast?.getD ""

/-- What a report says was expected: each rule once, in the order of the rules. -/
def expectedMessage (expected : List Rule) : String :=
  match Rule.all.filter fun r => expected.contains r with
  | [] => "unknown parsing error"
  | rules => "expected " ++ joinAlternatives (rules.map Rule.name)

namespace ParseError

/-- Line and column of an error. -/
def position (source : String) : ParseError → Nat × Nat
  | .unmatched offset _ => Text.lineColumn source.toList offset
  | .unbuildable error => Text.lineColumn source.toList error.span.start

/-- The report of an error, with an excerpt of the source. -/
def message (source : String) : ParseError → String
  | .unmatched offset expected =>
    Text.pointReport source.toList offset (expectedMessage expected)
  | .unbuildable error =>
    Text.stretchReport source.toList error.span.start error.span.stop error.message

end ParseError

/-- The matched nodes of a rule at the beginning of a text. -/
def parseRule (rule : Rule) (source : String) : Except ParseError (List (Node Rule)) :=
  match Language.grammar.read rule source.toList with
  | (.matched nodes _, _) => .ok nodes
  | (_, log) => .error (.unmatched log.offset log.rules)

/-- The program of a script. -/
def parseScript (source : String) : Except ParseError Program := do
  match ← parseRule .script source with
  | [] => .error (.unbuildable (.unexpectedEnd (Text.byteLength source.toList)))
  | node :: _ => (Program.ofNode node).mapError .unbuildable

/-- An outcome that was found by evaluation. -/
theorem exists_ok_of_toOption_map {ε α β : Type} {x : Except ε α} {f : α → β} {b : β}
    (h : x.toOption.map f = some b) : ∃ a, x = .ok a ∧ f a = b := by
  cases x with
  | error e => exact nomatch h
  | ok a => exact ⟨a, rfl, Option.some.inj h⟩

mutual

/-- The lines of a node, at a level of indentation. -/
def dumpNode (level : Nat) : Node Rule → List String
  | .mk rule start stop text children =>
    (String.ofList (List.replicate (2 * level) ' ') ++ rule.name ++ " => (" ++ toString start ++
      "," ++ toString stop ++ ") #" ++ Text.quote (String.ofList text)) ::
      dumpNodes (level + 1) children

/-- The lines of nodes, in order. -/
def dumpNodes (level : Nat) : List (Node Rule) → List String
  | [] => []
  | node :: rest => dumpNode level node ++ dumpNodes level rest

end

/-- The matched tree of a script: a line for every node, with its rule, its offsets and its text,
two columns further to the right than the node around it. -/
def treeDump (source : String) : Except ParseError String := do
  let nodes ← parseRule .script source
  return "\n".intercalate (dumpNodes 0 nodes)

end ScriptTrace
