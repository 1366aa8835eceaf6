import ScriptTrace.Proofs.ExpressionSyntax
import ScriptTrace.Proofs.Recasting

/-!
# Expressions as texts

An expression without functions is written with every operand in parentheses (`Expression.write`).
A name must be one that the grammar accepts as a name, and a number one that some numeral spells
(`Expression.Spellable`); how the numeral is found does not matter here.  Strings can be any texts.

Two expressions are compared without the stretches of source that they remember
(`Expression.unplaced`).  `ReadAs e node` says that a node is built as the expression `e` in this
sense.  There is a lemma for each form of expression; none of them knows which text the node was
matched with.

* `Expression.Spellable`, `Expression.write`: expressions and their texts.
* `ReadAs`, `ReadAsKey`, `ReadAsProperty`: what a node is built as.
-/

namespace ScriptTrace

open Peg (Node)
open ScriptTrace.Language

/-! ## Expressions and their texts -/

/-- A number is the value of a numeral. -/
def Number.IsSpelled (x : Number) : Prop :=
  ∃ text, accepts .numericLiteral text = true ∧ Number.ofNumeral? text = some x

/-- Whether a literal can be written down. -/
def Literal.Spellable : Literal → Prop
  | .num x => x.IsSpelled
  | .null | .bool _ | .str _ => True

/-- Whether the key of a property can be written down. -/
def PropertyKey.Spellable : PropertyKey → Prop
  | .name word => accepts .identifierName word.toList = true
  | .str _ => True
  | .num x => x.IsSpelled

mutual

/-- Whether an expression can be written down: it has no functions, and the grammar accepts its
names. -/
def Expression.Spellable : Expression → Prop
  | .literal _ value => value.Spellable
  | .identifier name => accepts .identifier name.name.toList = true
  | .object _ properties => SpellableProperties properties
  | .array _ elements => SpellableAll elements
  | .member _ base property =>
    base.Spellable ∧ accepts .identifierName property.name.toList = true
  | .assignVariable _ target value =>
    accepts .identifier target.name.toList = true ∧ value.Spellable
  | .assignMember _ _ base property value =>
    base.Spellable ∧ accepts .identifierName property.name.toList = true ∧ value.Spellable
  | .call _ callee arguments => callee.Spellable ∧ SpellableAll arguments
  | .function _ _ => False
  | .unary _ _ operand => operand.Spellable
  | .binary _ _ left right => left.Spellable ∧ right.Spellable

/-- Several expressions. -/
def SpellableAll : List Expression → Prop
  | [] => True
  | e :: rest => e.Spellable ∧ SpellableAll rest

/-- The properties of an object literal. -/
def SpellableProperties : List (Property Expression) → Prop
  | [] => True
  | ⟨_, key, value⟩ :: rest => key.Spellable ∧ value.Spellable ∧ SpellableProperties rest

end

/-- Numbers are written as numerals that spell them. -/
def Spells (numeral : Number → List Char) : Prop :=
  ∀ x : Number, x.IsSpelled →
    accepts .numericLiteral (numeral x) = true ∧ Number.ofNumeral? (numeral x) = some x

theorem exists_spells : ∃ numeral, Spells numeral := by
  have each : ∀ x : Number, ∃ text, x.IsSpelled →
      accepts .numericLiteral text = true ∧ Number.ofNumeral? text = some x := by
    intro x
    by_cases h : x.IsSpelled
    · obtain ⟨text, spelled⟩ := h
      exact ⟨text, fun _ => spelled⟩
    · exact ⟨[], fun spelled => absurd spelled h⟩
  choose numeral spells using each
  exact ⟨numeral, spells⟩

/-- A text in quotation marks, in front of another text. -/
def writeString (s : String) (tail : List Char) : List Char :=
  '"' :: (escapeIn '"' s.toList ++ '"' :: tail)

/-- The text of a literal, in front of another text. -/
def Literal.write (numeral : Number → List Char) : Literal → List Char → List Char
  | .null, tail => "null".toList ++ tail
  | .bool value, tail => (if value then "true" else "false").toList ++ tail
  | .str s, tail => writeString s tail
  | .num x, tail => numeral x ++ tail

/-- The text of the key of a property, in front of another text. -/
def PropertyKey.write (numeral : Number → List Char) : PropertyKey → List Char → List Char
  | .name word, tail => word.toList ++ tail
  | .str s, tail => writeString s tail
  | .num x, tail => numeral x ++ tail

mutual

/-- The text of an expression, in front of another text.  All operands are in parentheses. -/
def Expression.write (numeral : Number → List Char) : Expression → List Char → List Char
  | .literal _ value, tail => value.write numeral tail
  | .identifier name, tail => name.name.toList ++ tail
  | .object _ properties, tail =>
    '\x7b' :: separated (propertyTexts numeral properties) ('\x7d' :: tail)
  | .array _ elements, tail => '[' :: separated (expressionTexts numeral elements) (']' :: tail)
  | .member _ base property, tail =>
    '(' :: base.write numeral (')' :: '.' :: (property.name.toList ++ tail))
  | .assignVariable _ target value, tail =>
    target.name.toList ++ '=' :: '(' :: value.write numeral (')' :: tail)
  | .assignMember _ _ base property value, tail =>
    '(' :: base.write numeral (')' :: '.' :: (property.name.toList ++
      '=' :: '(' :: value.write numeral (')' :: tail)))
  | .call _ callee arguments, tail =>
    '(' :: callee.write numeral (')' :: '(' ::
      separated (expressionTexts numeral arguments) (')' :: tail))
  | .function _ _, tail => tail
  | .unary _ operator operand, tail =>
    operator.symbol.toList ++ '(' :: operand.write numeral (')' :: tail)
  | .binary _ operator left right, tail =>
    '(' :: left.write numeral (')' :: (operator.symbol.toList ++
      '(' :: right.write numeral (')' :: tail)))

/-- The texts of several expressions, each in parentheses. -/
def expressionTexts (numeral : Number → List Char) : List Expression → List (List Char → List Char)
  | [] => []
  | e :: rest => (fun tail => '(' :: e.write numeral (')' :: tail)) :: expressionTexts numeral rest

/-- The texts of the properties of an object literal. -/
def propertyTexts (numeral : Number → List Char) :
    List (Property Expression) → List (List Char → List Char)
  | [] => []
  | ⟨_, key, value⟩ :: rest =>
    (fun tail => key.write numeral (':' :: '(' :: value.write numeral (')' :: tail))) ::
      propertyTexts numeral rest

end

/-! ## Nodes and the expressions that they are built as -/

/-- A node is built as an expression, up to stretches of source. -/
def ReadAs (e : Expression) (node : Node Rule) : Prop :=
  (buildExpression node).StopsAt [] fun built => built.unplaced = e.unplaced

/-- Two nodes with properties. -/
def Pair (P Q : Node Rule → Prop) (nodes : List (Node Rule)) : Prop :=
  ∃ first last, nodes = [first, last] ∧ P first ∧ Q last

theorem Pair.of_single {P Q : Node Rule → Prop} (xs ys : List (Node Rule)) (hx : Single P xs)
    (hy : Single Q ys) : Pair P Q (xs ++ ys) := by
  obtain ⟨first, rfl, left⟩ := hx
  obtain ⟨last, rfl, right⟩ := hy
  exact ⟨first, last, rfl, left, right⟩

theorem readAs_chain {e : Expression} {node : Node Rule}
    (h : NodeOf .binaryExpression (Single (ReadAs e)) node) : ReadAs e node := by
  obtain ⟨a, b, text, _, rfl, operand, rfl, built⟩ := h
  rw [ReadAs, buildExpression]
  exact built.bind_nil fun e' same => .pure same

theorem readAs_operand {e : Expression} {node : Node Rule}
    (h : NodeOf .memberExpression (Single (ReadAs e)) node) : ReadAs e node := by
  obtain ⟨a, b, text, _, rfl, operand, rfl, built⟩ := h
  rw [ReadAs, buildExpression]
  exact built.bind_nil fun e' same => .pure same

theorem readAs_name (name : Identifier) (a b : Nat) (ks : List (Node Rule)) :
    ReadAs (.identifier name) (.mk .identifier a b name.name.toList ks) := by
  rw [ReadAs, buildExpression]
  refine .pure ?_
  rw [Expression.unplaced_identifier, Expression.unplaced_identifier, String.ofList_toList]

theorem buildNumeral_of_spelled {x : Number} {text : List Char}
    (spelled : Number.ofNumeral? text = some x) (a b : Nat) (ks : List (Node Rule)) :
    buildNumeral (.mk .numericLiteral a b text ks) = pure x := by
  rw [buildNumeral, Node.text, spelled]

theorem readAs_numeral (span : Span) {x : Number} {text : List Char}
    (spelled : Number.ofNumeral? text = some x) (a b : Nat) (ks : List (Node Rule)) :
    ReadAs (.literal span (.num x)) (.mk .numericLiteral a b text ks) := by
  rw [ReadAs, buildExpression, buildNumeral_of_spelled spelled, pure_bind]
  exact .pure rfl

/-- The node of a string. -/
def SpellsString (s : String) : Node Rule → Prop :=
  NodeOf .stringLiteral (LeafOf .doubleStringCharacters (escapeIn '"' s.toList))

theorem buildString_of_spells {s : String} {node : Node Rule} (h : SpellsString s node) :
    buildString node = s := by
  obtain ⟨a, b, text, _, rfl, c, d, ks, rfl⟩ := h
  rw [buildString]
  show String.ofList (unescape (escapeIn '"' s.toList)) = s
  rw [unescape_escapeIn (.inl rfl), String.ofList_toList]

theorem readAs_string (span : Span) {s : String} {node : Node Rule} (h : SpellsString s node) :
    ReadAs (.literal span (.str s)) node := by
  have text := buildString_of_spells h
  obtain ⟨a, b, _, ks, rfl, -⟩ := h
  rw [ReadAs, buildExpression, text]
  exact .pure rfl

theorem readAs_boolean (span : Span) (value : Bool) (a b : Nat) (ks : List (Node Rule)) :
    ReadAs (.literal span (.bool value))
      (.mk .booleanLiteral a b (if value then "true" else "false").toList ks) := by
  rw [ReadAs, buildExpression]
  refine .pure ?_
  cases value <;> rfl

theorem readAs_null (span : Span) (a b : Nat) (text : List Char) (ks : List (Node Rule)) :
    ReadAs (.literal span .null) (.mk .nullLiteral a b text ks) := by
  rw [ReadAs, buildExpression]
  exact .pure rfl

theorem readAs_property {base : Expression} {property : Identifier} {node : Node Rule} (span : Span)
    (h : NodeOf .memberExpression (Pair (ReadAs base)
      (NodeOf .dotProperty (LeafOf .identifierName property.name.toList))) node) :
    ReadAs (.member span base property) node := by
  obtain ⟨a, b, text, _, rfl, first, _, rfl, built, c, d, text', _, rfl, e, f, ks, rfl⟩ := h
  rw [ReadAs, buildExpression]
  refine built.bind_nil fun base' same => ?_
  rw [buildSuffixes, buildSuffixes]
  refine .pure ?_
  simp only [Expression.unplaced_member, same, buildIdentifier, Node.text, String.ofList_toList]

theorem stopsAt_buildExpressions_of_readAs {es : List Expression} {nodes : List (Node Rule)}
    (h : List.Forall₂ ReadAs es nodes) :
    (buildExpressions nodes).StopsAt [] fun built =>
      built.map Expression.unplaced = es.map Expression.unplaced := by
  induction h with
  | nil =>
    rw [buildExpressions]
    exact .pure rfl
  | @cons e node es nodes built _ ih =>
    rw [buildExpressions]
    refine built.bind_nil fun e' same => ih.bind_nil fun es' same' => .pure ?_
    rw [List.map_cons, List.map_cons, same, same']

theorem readAs_array {es : List Expression} {node : Node Rule} (span : Span)
    (h : NodeOf .arrayLiteral (List.Forall₂ ReadAs es) node) : ReadAs (.array span es) node := by
  obtain ⟨a, b, text, ks, rfl, built⟩ := h
  rw [ReadAs, buildExpression]
  refine (stopsAt_buildExpressions_of_readAs built).bind_nil fun es' same => .pure ?_
  rw [Expression.unplaced_array, Expression.unplaced_array, same]

theorem readAs_call {callee : Expression} {arguments : List Expression} {node : Node Rule}
    (span : Span)
    (h : NodeOf .memberExpression (Pair (ReadAs callee)
      (NodeOf .callArguments (List.Forall₂ ReadAs arguments))) node) :
    ReadAs (.call span callee arguments) node := by
  obtain ⟨a, b, text, _, rfl, first, _, rfl, built, c, d, text', ks, rfl, args⟩ := h
  rw [ReadAs, buildExpression]
  refine built.bind_nil fun callee' same => ?_
  rw [buildSuffixes]
  refine (stopsAt_buildExpressions_of_readAs args).bind_nil fun arguments' same' => ?_
  rw [buildSuffixes]
  refine .pure ?_
  rw [Expression.unplaced_call, Expression.unplaced_call, same, same']

/-- A node is built as the key of a property. -/
def ReadAsKey (key : PropertyKey) (node : Node Rule) : Prop :=
  buildKey node = pure key

theorem readAsKey_name (name : String) (a b : Nat) (ks : List (Node Rule)) :
    ReadAsKey (.name name) (.mk .identifierName a b name.toList ks) := by
  rw [ReadAsKey, buildKey]
  show pure (PropertyKey.name (String.ofList name.toList)) = _
  rw [String.ofList_toList]

theorem readAsKey_string {s : String} {node : Node Rule} (h : SpellsString s node) :
    ReadAsKey (.str s) node := by
  have text := buildString_of_spells h
  obtain ⟨a, b, _, ks, rfl, -⟩ := h
  rw [ReadAsKey, buildKey, text]
  rfl

theorem readAsKey_numeral {x : Number} {text : List Char}
    (spelled : Number.ofNumeral? text = some x) (a b : Nat) (ks : List (Node Rule)) :
    ReadAsKey (.num x) (.mk .numericLiteral a b text ks) := by
  rw [ReadAsKey, buildKey, buildNumeral_of_spelled spelled]
  rfl

/-- A node is built as a property of an object literal. -/
def ReadAsProperty (p : Property Expression) : Node Rule → Prop :=
  NodeOf .propertyDefinition (Pair (ReadAsKey p.key) (ReadAs p.value))

theorem stopsAt_buildProperties_of_readAs {ps : List (Property Expression)}
    {nodes : List (Node Rule)} (h : List.Forall₂ ReadAsProperty ps nodes) :
    (buildProperties nodes).StopsAt [] fun built =>
      recastProperties (.moving fun _ => 0) built = recastProperties (.moving fun _ => 0) ps := by
  induction h with
  | nil =>
    rw [buildProperties]
    exact .pure rfl
  | @cons p node ps nodes built _ ih =>
    obtain ⟨a, b, text, _, rfl, key, value, rfl, keyBuilt, valueBuilt⟩ := built
    obtain ⟨span, k, v⟩ := p
    rw [buildProperties, keyBuilt, pure_bind]
    refine valueBuilt.bind_nil fun value' same => ih.bind_nil fun ps' same' => .pure ?_
    rw [recastProperties, recastProperties, ← Expression.unplaced, ← Expression.unplaced, same,
      same']
    rfl

theorem readAs_object {ps : List (Property Expression)} {node : Node Rule} (span : Span)
    (h : NodeOf .objectLiteral (List.Forall₂ ReadAsProperty ps) node) :
    ReadAs (.object span ps) node := by
  obtain ⟨a, b, text, ks, rfl, built⟩ := h
  rw [ReadAs, buildExpression]
  refine (stopsAt_buildProperties_of_readAs built).bind_nil fun ps' same => .pure ?_
  rw [Expression.unplaced_object, Expression.unplaced_object, same]

theorem readAs_unary {operator : UnaryOperator} {operand : Expression} {node : Node Rule}
    (span : Span)
    (h : NodeOf .prefixExpression (Pair (·.text = operator.symbol.toList) (ReadAs operand)) node) :
    ReadAs (.unary span operator operand) node := by
  obtain ⟨a, b, text, _, rfl, sign, last, rfl, symbol, built⟩ := h
  have operator_eq : buildUnaryOperator sign = pure operator := by
    rw [buildUnaryOperator, symbol, String.ofList_toList]
    cases operator <;> rfl
  rw [ReadAs, buildExpression, operator_eq, pure_bind]
  refine built.bind_nil fun operand' same => .pure ?_
  rw [Expression.unplaced_unary, Expression.unplaced_unary, same]

theorem readAs_binary {operator : BinaryOperator} {left right : Expression} {node : Node Rule}
    (span : Span)
    (h : NodeOf .binaryExpression (fun ks => ∃ first others, ks = first :: others ∧
      ReadAs left first ∧ Pair (·.text = operator.symbol.toList) (ReadAs right) others) node) :
    ReadAs (.binary span operator left right) node := by
  obtain ⟨a, b, text, _, rfl, first, _, rfl, leftBuilt, sign, last, rfl, symbol, rightBuilt⟩ := h
  have operator_eq : buildBinaryOperator sign = pure operator := by
    rw [buildBinaryOperator, symbol, String.ofList_toList]
    cases operator <;> rfl
  rw [ReadAs, buildExpression]
  refine leftBuilt.bind_nil fun left' same => ?_
  rw [buildChain, operator_eq, pure_bind]
  refine rightBuilt.bind_nil fun right' same' => ?_
  rw [buildChain]
  refine .pure ?_
  rw [Expression.unplaced_binary, Expression.unplaced_binary, same, same']

theorem readAs_assignVariable {target : Identifier} {value : Expression} {node : Node Rule}
    (span : Span)
    (h : NodeOf .assignmentExpression (Pair (ReadAs (.identifier target)) (ReadAs value)) node) :
    ReadAs (.assignVariable span target value) node := by
  obtain ⟨a, b, text, _, rfl, first, last, rfl, targetBuilt, built⟩ := h
  rw [ReadAs, buildExpression]
  refine targetBuilt.bind_nil fun target' same => ?_
  cases target' with
  | identifier name =>
    refine built.bind_nil fun value' same' => .pure ?_
    have name_eq : name.name = target.name := by
      simpa using same
    rw [Expression.unplaced_assignVariable, Expression.unplaced_assignVariable, name_eq, same']
  | _ => simp at same

theorem readAs_assignMember {base : Expression} {property : Identifier} {value : Expression}
    {node : Node Rule} (span targetSpan : Span)
    (h : NodeOf .assignmentExpression
      (Pair (ReadAs (.member targetSpan base property)) (ReadAs value)) node) :
    ReadAs (.assignMember span targetSpan base property value) node := by
  obtain ⟨a, b, text, _, rfl, first, last, rfl, targetBuilt, built⟩ := h
  rw [ReadAs, buildExpression]
  refine targetBuilt.bind_nil fun target' same => ?_
  cases target' with
  | member span' base' property' =>
    refine built.bind_nil fun value' same' => .pure ?_
    obtain ⟨base_eq, property_eq⟩ : base'.unplaced = base.unplaced ∧
        property'.name = property.name := by
      simpa using same
    rw [Expression.unplaced_assignMember, Expression.unplaced_assignMember, base_eq, property_eq,
      same']
  | _ => simp at same

end ScriptTrace
