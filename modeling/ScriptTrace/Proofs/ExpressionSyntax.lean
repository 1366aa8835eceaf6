import Mathlib.Data.List.Forall2
import ScriptTrace.Proofs.AssignmentTargets
import ScriptTrace.Proofs.Words

/-!
# How expressions are taken

The grammar says what an expression may look like.  Choices are ordered, and an assignment is tried
before a chain of operands, so a form that stands in the grammar need not be reached.  This file
says for each form of expression which texts the rule for expressions takes as that form, with all
operands in parentheses.

Whether an operand ends where it should depends on what follows it.  `Ends` says that no property
and no call follows, and `Closes` that in addition no assignment and no operator does.  A closing
bracket, a comma and a semicolon close; an operator ends, and is told from an assignment by what
follows its first character (`ends_operator`, `refuses_assignOperator_of_operator`).

* `takes_parentheses`: an expression in parentheses.
* `takes_primary`, `takes_member`: operands.
* `takes_expression_of_member`, `takes_assignment`, `takes_prefix`, `takes_binary`: expressions.
* `takes_commaList`: items with commas between them.
-/

namespace ScriptTrace

open Peg Pattern

namespace Language

variable {text mid rest : List Char} {P Q S : List (Node Rule) → Prop}

/-! ## Rules with and without nodes -/

theorem takes_node (rule : Rule) (normal : grammar.kind rule = .normal)
    (h : grammar.Takes .free (grammar.body rule) text rest P) :
    grammar.Takes .free (.rule rule) text rest (Single (NodeOf rule P)) := by
  have node : grammar.Takes .free (.rule rule) text rest _ :=
    .node (by rw [normal]; exact h) (by rw [normal]; decide)
  refine node.mono fun nodes known => ?_
  obtain ⟨start, stop, taken, children, eq, holds⟩ := known
  exact ⟨_, eq, start, stop, taken, children, rfl, holds⟩

theorem takes_silent {rule : Rule} (silent : grammar.kind rule = .silent)
    (h : grammar.Takes .free (grammar.body rule) text rest P) :
    grammar.Takes .free (.rule rule) text rest P :=
  .silent (by rw [silent]; exact h) (by rw [silent]; decide)

/-- A single character that is spelled out. -/
theorem takes_sign (c : Char) (rest : List Char) :
    grammar.Takes .free (.text [c]) (c :: rest) rest (· = []) :=
  Grammar.takes_text [c] rest

theorem append_of_nil_left {xs ys : List (Node Rule)} (hx : xs = []) (hy : P ys) :
    P (xs ++ ys) := by
  rw [hx]
  exact hy

theorem append_of_nil_right {xs ys : List (Node Rule)} (hx : P xs) (hy : ys = []) :
    P (xs ++ ys) := by
  rw [hy, List.append_nil]
  exact hx

/-! ## What may follow an operand -/

/-- A property or a call. -/
def suffix : Pattern Rule :=
  .choice (.rule .dotProperty) (.rule .callArguments)

/-- An operand ends where the text begins. -/
structure Ends (rest : List Char) : Prop where
  quiet : grammar.Quiet .free rest
  noSuffix : grammar.Refuses .free suffix rest

/-- An expression ends where the text begins. -/
structure Closes (rest : List Char) : Prop extends Ends rest where
  noAssignment : grammar.Refuses .free (.rule .assignOperator) rest
  noOperator : grammar.Refuses .free (.rule .binaryOperator) rest

theorem refuses_suffix {c : Char} (noDot : c ≠ '.') (noCall : c ≠ '(') (rest : List Char) :
    grammar.Refuses .free suffix (c :: rest) :=
  .choice (.rule (.seq (refuses_text_of_ne noDot.symm rest) _))
    (.rule (.seq (refuses_text_of_ne noCall.symm rest) _))

theorem refuses_assignOperator {c : Char} (ne : c ≠ '=') (rest : List Char) :
    grammar.Refuses .free (.rule .assignOperator) (c :: rest) :=
  .rule (.seq (refuses_text_of_ne ne.symm rest) _)

/-- Characters that end an expression. -/
def closers : List Char :=
  [')', ']', '\x7d', ',', ';']

theorem closes_of_mem {c : Char} (mem : c ∈ closers) (rest : List Char) : Closes (c :: rest) := by
  have others : closers.all
      (fun c => decide (c ∈ signs ∧ c ≠ '.' ∧ c ≠ '(' ∧ c ≠ '=')) = true := by decide
  have operators : closers.all (fun c => avoids .free (.rule .binaryOperator) (some c)) = true := by
    decide
  obtain ⟨sign, noDot, noCall, noAssignment⟩ :=
    of_decide_eq_true (List.all_eq_true.mp others c mem)
  exact {
    quiet := quiet_sign sign rest
    noSuffix := refuses_suffix noDot noCall rest
    noAssignment := refuses_assignOperator noAssignment rest
    noOperator := refuses_at (List.all_eq_true.mp operators c mem) rest }

/-! ## Operators -/

/-- The operators between operands, in the order in which they are tried. -/
def binarySymbols : List String :=
  ["===", "!==", "==", "!=", "<=", ">=", "&&", "||", "+", "-", "*", "/", "%", "<", ">"]

/-- The characters of the operators between operands. -/
def operatorSigns : List Char :=
  ['=', '!', '<', '>', '&', '|', '+', '-', '*', '/', '%']

theorem symbol_mem_binarySymbols (operator : BinaryOperator) : operator.symbol ∈ binarySymbols := by
  cases operator <;> decide

theorem mem_operatorSigns_of_mem_toList {v : String} (mem : v ∈ binarySymbols) {c : Char}
    (inside : c ∈ v.toList) : c ∈ operatorSigns := by
  have all : binarySymbols.all (fun v => v.toList.all operatorSigns.contains) = true := by decide
  exact List.contains_iff_mem.mp (List.all_eq_true.mp (List.all_eq_true.mp all v mem) c inside)

/-- A word is taken before a character that is in none of those that are tried before it, if none of
them begins the word. -/
theorem takes_oneOfWords {first : String} {others : List String} {w : String} {c : Char}
    (mem : w ∈ first :: others)
    (clear : ∀ v ∈ (first :: others).takeWhile (· != w), ¬ v.toList <+: w.toList ∧ c ∉ v.toList)
    (rest : List Char) :
    grammar.Takes .free (oneOfWords first others) (w.toList ++ c :: rest) (c :: rest)
      (· = []) := by
  intro offset
  have here : Place.eat? ⟨offset, w.toList ++ c :: rest⟩ w.toList =
      some ⟨offset + Text.byteLength w.toList, c :: rest⟩ :=
    Place.eat?_eq_some_iff.mpr ⟨rfl, rfl⟩
  refine ⟨[], _, rfl, gives_oneOfWords mem here fun v before => ?_⟩
  obtain ⟨different, foreign⟩ := clear v before
  cases eaten : Place.eat? ⟨offset, w.toList ++ c :: rest⟩ v.toList with
  | none => rfl
  | some q =>
    have begins : v.toList <+: w.toList ++ c :: rest :=
      ⟨q.rest, (Place.eat?_eq_some_iff.mp eaten).1.symm⟩
    exact absurd (isPrefix_of_not_mem foreign begins) different

/-- An operator is read as it is written, before a character that is in no operator. -/
theorem takes_operatorSymbol (operator : BinaryOperator) {c : Char} (plain : c ∉ operatorSigns)
    (rest : List Char) :
    grammar.Takes .free (grammar.body .binaryOperator) (operator.symbol.toList ++ c :: rest)
      (c :: rest) (· = []) := by
  have mem := symbol_mem_binarySymbols operator
  have different : ∀ v ∈ binarySymbols.takeWhile (· != operator.symbol),
      ¬ v.toList <+: operator.symbol.toList := by
    cases operator <;> decide
  refine takes_oneOfWords mem (fun v before => ⟨different v before, fun inside => plain ?_⟩) rest
  exact mem_operatorSigns_of_mem_toList ((List.takeWhile_sublist _).subset before) inside

theorem takes_binaryOperator (operator : BinaryOperator) (rest : List Char) :
    grammar.Takes .free (.rule .binaryOperator) (operator.symbol.toList ++ '(' :: rest)
      ('(' :: rest) (LeafOf .binaryOperator operator.symbol.toList) :=
  takes_leaf (takes_operatorSymbol operator (by decide) rest) (by decide)

theorem takes_unaryOperator (operator : UnaryOperator) (rest : List Char) :
    grammar.Takes .free (.rule .unaryOperator) (operator.symbol.toList ++ '(' :: rest) ('(' :: rest)
      (LeafOf .unaryOperator operator.symbol.toList) := by
  have mem : operator.symbol ∈ ["!", "-", "+"] := by cases operator <;> decide
  have clear : ∀ v ∈ ["!", "-", "+"].takeWhile (· != operator.symbol),
      ¬ v.toList <+: operator.symbol.toList ∧ '(' ∉ v.toList := by
    cases operator <;> decide
  exact takes_leaf (takes_oneOfWords mem clear rest) (by decide)

theorem ends_assignment (rest : List Char) : Ends ('=' :: rest) where
  quiet := quiet_sign (by decide) rest
  noSuffix := refuses_suffix (by decide) (by decide) rest

/-- An equals sign that is not doubled. -/
theorem takes_assignOperator (rest : List Char) :
    grammar.Takes .free (.rule .assignOperator) ('=' :: '(' :: rest) ('(' :: rest) (· = []) := by
  have single : grammar.Refuses .free (word "=") ('(' :: rest) :=
    refuses_text_of_ne (by decide) rest
  have quiet : grammar.Quiet .free ('(' :: rest) := quiet_sign (by decide) rest
  exact takes_silent rfl ((takes_sign '=' _).seq quiet single.takes_absent nil_append_nil)

/-- No operator begins as an assignment does. -/
theorem refuses_assignOperator_of_operator (operator : BinaryOperator) (rest : List Char) :
    grammar.Refuses .free (.rule .assignOperator) (operator.symbol.toList ++ rest) := by
  have doubled : ∀ rest, grammar.Refuses .free (.rule .assignOperator) ('=' :: '=' :: rest) :=
    fun rest => .rule ((takes_sign '=' _).seq_refuses (quiet_sign (by decide) _)
      (takes_sign '=' rest).refuses_absent)
  cases operator with
  | strictlyEqual | looselyEqual => exact doubled _
  | _ => exact refuses_assignOperator (by decide) _

/-- No operator begins a property or a call. -/
theorem refuses_suffix_of_operator (operator : BinaryOperator) (rest : List Char) :
    grammar.Refuses .free suffix (operator.symbol.toList ++ rest) := by
  cases operator <;> exact refuses_suffix (by decide) (by decide) _

/-- A stroke before a parenthesis begins no comment. -/
theorem quiet_stroke (rest : List Char) : grammar.Quiet .free ('/' :: '(' :: rest) := by
  have no : ∀ c, c ≠ '(' → grammar.Refuses .atomic (.text ['/', c]) ('/' :: '(' :: rest) := by
    intro c ne
    refine Grammar.refuses_text ?_
    rintro ⟨more, same⟩
    exact ne (List.cons.inj (List.cons.inj same).2).1
  have comment : grammar.Refuses .atomic (.rule .comment) ('/' :: '(' :: rest) :=
    .rule (.choice (.seq (no '/' (by decide)) _) (.seq (no '*' (by decide)) _))
  have blank : grammar.Refuses .atomic (.rule .whitespace) ('/' :: '(' :: rest) :=
    refuses_at (by decide) _
  exact Grammar.quiet_of_refuses trivia_eq (blank.choice comment)

theorem ends_operator (operator : BinaryOperator) (rest : List Char) :
    Ends (operator.symbol.toList ++ '(' :: rest) where
  quiet := by
    cases operator with
    | divide => exact quiet_stroke rest
    | _ => exact quiet_sign (by decide) _
  noSuffix := refuses_suffix_of_operator operator _

/-! ## Operands -/

/-- The forms of operands without parentheses around them, in the order in which they are tried. -/
def operandForms : List Rule :=
  [.functionExpression, .objectLiteral, .arrayLiteral, .numericLiteral, .stringLiteral,
    .booleanLiteral, .nullLiteral, .identifier]

/-- The forms that may begin with the same letter as an operand of a given form and are tried before
it.  All others are told from it by their first character (`isApart_operandForms`). -/
def confusable : Rule → List Rule
  | .booleanLiteral => [.functionExpression]
  | .identifier => [.functionExpression, .booleanLiteral, .nullLiteral]
  | _ => []

theorem isApart_operandForms : ∀ n < operandForms.length, ∀ form ∈ operandForms[n]?,
    ∀ other ∈ operandForms.take n,
      other ∈ confusable form ∨ isApart .free (.rule form) .free (.rule other) = true := by
  decide

/-- An operand without parentheses. -/
theorem takes_primary (n : Nat) {form : Rule} (taken : grammar.Takes .free (.rule form) text rest P)
    (here : operandForms[n]? = some form)
    (refused : ∀ other ∈ confusable form, grammar.Refuses .free (.rule other) text) :
    grammar.Takes .free (.rule .primaryExpression) text rest P := by
  have lt : n < operandForms.length := (List.getElem?_eq_some_iff.mp here).1
  have before : ∀ other ∈ operandForms.take n, grammar.Refuses .free (.rule other) text := by
    intro other mem
    rcases isApart_operandForms n lt form here other mem with confused | apart
    · exact refused other confused
    · exact refuses_of_isApart taken apart
  have lt' : n < (operandForms.map Pattern.rule).length := by rwa [List.length_map]
  refine takes_silent rfl (taken.oneOf n ?_ ?_)
  · show (operandForms.map Pattern.rule ++ [_])[n]? = _
    rw [List.getElem?_append_left lt', List.getElem?_map, here]
    rfl
  · show ∀ b ∈ (operandForms.map Pattern.rule ++
      [inOrder (word "(") [.rule .expression, word ")"]]).take n, grammar.Refuses .free b text
    rw [List.take_append_of_le_length (Nat.le_of_lt lt'), ← List.map_take]
    exact List.forall_mem_map.mpr before

/-- An expression in parentheses. -/
theorem takes_parentheses (h : grammar.Takes .free (.rule .expression) text (')' :: rest) P) :
    grammar.Takes .free (.rule .primaryExpression) ('(' :: text) rest P := by
  have quiet : grammar.Quiet .free text := quiet_of_takes (by decide) h
  have closed := h.seq (S := P) (closes_of_mem (by decide) rest).quiet (takes_sign ')' rest)
    fun _ _ => append_of_nil_right
  have whole := (takes_sign '(' text).seq (S := P) quiet closed fun _ _ => append_of_nil_left
  have others : ∀ form ∈ operandForms, avoids .free (.rule form) (some '(') = true := by
    decide
  refine takes_silent rfl (whole.oneOf 8 rfl ?_)
  show ∀ b ∈ operandForms.map Pattern.rule, _
  exact List.forall_mem_map.mpr fun form mem => refuses_at (others form mem) text

/-- An operand with the properties and calls after it. -/
theorem takes_member (primary : grammar.Takes .free (.rule .primaryExpression) text mid P)
    (quiet : grammar.Quiet .free mid) (suffixes : grammar.Takes .free (.many suffix) mid rest Q)
    (join : ∀ xs ys, P xs → Q ys → S (xs ++ ys)) :
    grammar.Takes .free (.rule .memberExpression) text rest
      (Single (NodeOf .memberExpression S)) :=
  takes_node .memberExpression rfl (primary.seq quiet suffixes join)

/-- An operand alone. -/
theorem takes_member_of_ends (primary : grammar.Takes .free (.rule .primaryExpression) text rest P)
    (ends : Ends rest) :
    grammar.Takes .free (.rule .memberExpression) text rest
      (Single (NodeOf .memberExpression P)) :=
  takes_member primary ends.quiet ends.noSuffix.takes_many fun _ _ => append_of_nil_right

/-- An operand with one property or call after it. -/
theorem takes_member_of_suffix
    (primary : grammar.Takes .free (.rule .primaryExpression) text mid P)
    (quiet : grammar.Quiet .free mid) (once : grammar.Takes .free suffix mid rest Q)
    (ends : Ends rest) (join : ∀ xs ys, P xs → Q ys → S (xs ++ ys)) :
    grammar.Takes .free (.rule .memberExpression) text rest
      (Single (NodeOf .memberExpression S)) := by
  have suffixes := once.many (S := Q) (ends.noSuffix.takesMore ends.quiet)
    fun _ _ => append_of_nil_right
  exact takes_member primary quiet suffixes join

/-- No operand begins as an operator does. -/
theorem takes_unary_of_member (h : grammar.Takes .free (.rule .memberExpression) text rest P) :
    grammar.Takes .free (.rule .unaryExpression) text rest P :=
  takes_silent rfl (.choice_of_refuses (refuses_of_isApart h (by decide)) h)

/-! ## Expressions -/

/-- A chain of a single operand. -/
theorem takes_expression_of_member
    (h : grammar.Takes .free (.rule .memberExpression) text rest P) (closes : Closes rest) :
    grammar.Takes .free (.rule .expression) text rest (Single (NodeOf .binaryExpression P)) := by
  have assignment : grammar.Refuses .free (.rule .assignmentExpression) text :=
    .rule (h.seq_refuses closes.quiet (closes.noAssignment.seq _))
  have chain := (takes_unary_of_member h).seq (S := P) closes.quiet
    (closes.noOperator.seq (.rule .unaryExpression)).takes_many fun _ _ => append_of_nil_right
  exact takes_silent rfl (.choice_of_refuses assignment (takes_node .binaryExpression rfl chain))

/-- An assignment, with its right side in parentheses. -/
theorem takes_assignment
    (target : grammar.Takes .free (.rule .memberExpression) text ('=' :: '(' :: mid) P)
    (value : grammar.Takes .free (.rule .expression) ('(' :: mid) rest Q)
    (join : ∀ xs ys, P xs → Q ys → S (xs ++ ys)) :
    grammar.Takes .free (.rule .expression) text rest
      (Single (NodeOf .assignmentExpression S)) := by
  have quiet : grammar.Quiet .free ('(' :: mid) := quiet_sign (by decide) mid
  have right := (takes_assignOperator mid).seq (S := Q) quiet value fun _ _ => append_of_nil_left
  have whole := target.seq (ends_assignment _).quiet right join
  exact takes_silent rfl (.choice (takes_node .assignmentExpression rfl whole) _)

/-- An operator before an operand in parentheses. -/
theorem takes_prefix (operator : UnaryOperator)
    (operand : grammar.Takes .free (.rule .unaryExpression) ('(' :: mid) rest P)
    (closes : Closes rest)
    (join : ∀ xs ys, LeafOf .unaryOperator operator.symbol.toList xs → P ys → S (xs ++ ys)) :
    grammar.Takes .free (.rule .expression) (operator.symbol.toList ++ '(' :: mid) rest
      (Single (NodeOf .binaryExpression (Single (NodeOf .prefixExpression S)))) := by
  have noOperand : ∀ rest, grammar.Refuses .free (.rule .memberExpression)
      (operator.symbol.toList ++ rest) := by
    intro rest
    cases operator <;> exact refuses_at (by decide) rest
  have assignment : grammar.Refuses .free (.rule .assignmentExpression)
      (operator.symbol.toList ++ '(' :: mid) := .rule ((noOperand _).seq _)
  have quiet : grammar.Quiet .free ('(' :: mid) := quiet_sign (by decide) mid
  have node := takes_node .prefixExpression rfl
    ((takes_unaryOperator operator mid).seq quiet operand join)
  have unary : grammar.Takes .free (.rule .unaryExpression) _ rest _ :=
    takes_silent rfl (node.choice _)
  have chain := unary.seq closes.quiet
    (closes.noOperator.seq (.rule .unaryExpression)).takes_many fun _ _ => append_of_nil_right
  exact takes_silent rfl (.choice_of_refuses assignment (takes_node .binaryExpression rfl chain))

/-- An operator between two operands, of which the second is in parentheses. -/
theorem takes_binary (operator : BinaryOperator)
    (left : grammar.Takes .free (.rule .memberExpression) text
      (operator.symbol.toList ++ '(' :: mid) P)
    (right : grammar.Takes .free (.rule .unaryExpression) ('(' :: mid) rest Q)
    (closes : Closes rest)
    (join : ∀ xs ys zs, P xs → LeafOf .binaryOperator operator.symbol.toList ys → Q zs →
      S (xs ++ (ys ++ zs))) :
    grammar.Takes .free (.rule .expression) text rest (Single (NodeOf .binaryExpression S)) := by
  have ends := ends_operator operator mid
  have assignment : grammar.Refuses .free (.rule .assignmentExpression) text :=
    .rule (left.seq_refuses ends.quiet ((refuses_assignOperator_of_operator operator _).seq _))
  have quiet : grammar.Quiet .free ('(' :: mid) := quiet_sign (by decide) mid
  let Link : List (Node Rule) → Prop := fun nodes =>
    ∃ ys zs, LeafOf .binaryOperator operator.symbol.toList ys ∧ Q zs ∧ nodes = ys ++ zs
  have link := (takes_binaryOperator operator mid).seq (S := Link) quiet right
    fun ys zs hy hz => ⟨ys, zs, hy, hz, rfl⟩
  have links := link.many (S := Link)
    ((closes.noOperator.seq (.rule .unaryExpression)).takesMore closes.quiet)
    fun _ _ => append_of_nil_right
  have chain := (takes_unary_of_member left).seq (S := S) ends.quiet links ?_
  · exact takes_silent rfl (.choice_of_refuses assignment (takes_node .binaryExpression rfl chain))
  · rintro xs _ hx ⟨ys, zs, hy, hz, rfl⟩
    exact join xs ys zs hx hy hz

/-! ## Lists -/

/-- Texts with a comma before each of them.  A text is a function that puts it before what
follows. -/
def afterCommas (texts : List (List Char → List Char)) (tail : List Char) : List Char :=
  texts.foldr (fun text rest => ',' :: text rest) tail

/-- Texts with commas between them. -/
def separated : List (List Char → List Char) → List Char → List Char
  | [], tail => tail
  | text :: texts, tail => text (afterCommas texts tail)

theorem exists_closer {close : Char} (mem : close ∈ closers) (texts : List (List Char → List Char))
    (rest : List Char) :
    ∃ c ∈ closers, ∃ more, afterCommas texts (close :: rest) = c :: more := by
  cases texts with
  | nil => exact ⟨close, mem, rest, rfl⟩
  | cons text texts => exact ⟨',', by decide, _, rfl⟩

section CommaList

variable {ι : Type} {B : ι → Node Rule → Prop} {item : Rule} {close : Char}
variable {texts : List (List Char → List Char)} {xs : List ι}

/-- The text of an item is taken before a character that closes. -/
def Listed (item : Rule) (B : ι → Node Rule → Prop) (text : List Char → List Char) (x : ι) : Prop :=
  ∀ c ∈ closers, ∀ rest,
    grammar.Takes .free (.rule item) (text (c :: rest)) (c :: rest) (Single (B x))

theorem Listed.takes {text : List Char → List Char} {x : ι} (h : Listed item B text x)
    (mem : close ∈ closers) (texts : List (List Char → List Char)) (rest : List Char) :
    grammar.Takes .free (.rule item) (text (afterCommas texts (close :: rest)))
      (afterCommas texts (close :: rest)) (Single (B x)) := by
  obtain ⟨c, closes, more, eq⟩ := exists_closer mem texts rest
  rw [eq]
  exact h c closes more

theorem forall₂_append_single {x : ι} {ys zs : List (Node Rule)} (hy : Single (B x) ys)
    (hz : List.Forall₂ B xs zs) : List.Forall₂ B (x :: xs) (ys ++ zs) := by
  obtain ⟨node, rfl, holds⟩ := hy
  exact .cons holds hz

variable (solid : item ∈ solidRules) (mem : close ∈ closers)

include solid mem in
theorem Listed.takes_afterComma {text : List Char → List Char} {x : ι} (h : Listed item B text x)
    (texts : List (List Char → List Char)) (rest : List Char) :
    grammar.Takes .free (.seq (word ",") (.rule item))
      (',' :: text (afterCommas texts (close :: rest))) (afterCommas texts (close :: rest))
      (Single (B x)) := by
  have taken := h.takes mem texts rest
  exact (takes_sign ',' _).seq (quiet_of_takes solid taken) taken fun _ _ => append_of_nil_left

variable (ne : close ≠ ',')
include solid mem ne

/-- The items after the first. -/
theorem takesMore_afterComma (each : List.Forall₂ (Listed item B) texts xs) (rest : List Char) :
    grammar.TakesMore .free (.seq (word ",") (.rule item)) (afterCommas texts (close :: rest))
      (close :: rest) (List.Forall₂ B xs) := by
  have quiet := (closes_of_mem mem rest).quiet
  have noComma : grammar.Refuses .free (.seq (word ",") (.rule item)) (close :: rest) :=
    .seq (refuses_text_of_ne ne.symm rest) _
  induction each with
  | nil =>
    intro offset
    obtain ⟨nodes, stop, rfl, gives⟩ := noComma.takesMore quiet offset
    exact ⟨[], stop, .nil, gives⟩
  | @cons text x texts xs listed _ ih =>
    exact (listed.takes_afterComma solid mem texts rest).takesMore
      (closes_of_mem (by decide) _).quiet ih fun _ _ => forall₂_append_single

theorem takes_afterCommas (each : List.Forall₂ (Listed item B) texts xs) (rest : List Char) :
    grammar.Takes .free (.many (.seq (word ",") (.rule item))) (afterCommas texts (close :: rest))
      (close :: rest) (List.Forall₂ B xs) := by
  cases each with
  | nil =>
    have noComma : grammar.Refuses .free (.seq (word ",") (.rule item)) (close :: rest) :=
      .seq (refuses_text_of_ne ne.symm rest) _
    exact noComma.takes_many.mono fun nodes none => none ▸ .nil
  | @cons text x texts xs listed others =>
    exact (listed.takes_afterComma solid mem texts rest).many
      (takesMore_afterComma solid mem ne others rest) fun _ _ => forall₂_append_single

/-- **Items with commas between them**, before the character that closes the list. -/
theorem takes_commaList (each : List.Forall₂ (Listed item B) texts xs) (rest : List Char) :
    grammar.Quiet .free (separated texts (close :: rest)) ∧
      grammar.Takes .free (commaList (.rule item)) (separated texts (close :: rest))
        (close :: rest) (List.Forall₂ B xs) := by
  have quiet := (closes_of_mem mem rest).quiet
  cases each with
  | nil =>
    have all : solidRules.all (fun item => closers.all fun c =>
        avoids .free (.rule item) (some c)) = true := by decide
    have avoided := List.all_eq_true.mp (List.all_eq_true.mp all item solid) close mem
    have noItem : grammar.Refuses .free (.rule item) (close :: rest) := refuses_at avoided rest
    refine ⟨quiet, (noItem.seq _).takes_optional.mono fun nodes none => ?_⟩
    rw [none]
    exact .nil
  | @cons text x texts xs listed others =>
    have taken := listed.takes mem texts rest
    have noComma : grammar.Refuses .free (word ",") (close :: rest) :=
      refuses_text_of_ne ne.symm rest
    have further := (takes_afterCommas solid mem ne others rest).seq (S := List.Forall₂ B xs) quiet
      noComma.takes_optional fun _ _ => append_of_nil_right
    obtain ⟨c, closes, more, eq⟩ := exists_closer mem texts rest
    have between : grammar.Quiet .free (afterCommas texts (close :: rest)) := by
      rw [eq]
      exact (closes_of_mem closes more).quiet
    exact ⟨quiet_of_takes solid taken,
      (taken.seq between further fun _ _ => forall₂_append_single).optional⟩

/-- Items in brackets. -/
theorem takes_brackets (each : List.Forall₂ (Listed item B) texts xs) (bracket : Char)
    (rest : List Char) :
    grammar.Takes .free (inOrder (.text [bracket]) [commaList (.rule item), .text [close]])
      (bracket :: separated texts (close :: rest)) rest (List.Forall₂ B xs) := by
  obtain ⟨begins, items⟩ := takes_commaList solid mem ne each rest
  have closed := items.seq (S := List.Forall₂ B xs) (closes_of_mem mem rest).quiet
    (takes_sign close rest) fun _ _ => append_of_nil_right
  exact (takes_sign bracket _).seq begins closed fun _ _ => append_of_nil_left

end CommaList

end Language

end ScriptTrace
