import ScriptTrace.Parse
import ScriptTrace.Proofs.Building
import ScriptTrace.Proofs.Numerals

/-!
# A script is refused only for an assignment

A text that the grammar accepts has a matched tree, and building the syntax tree takes that tree
apart by the number, the order and the rules of its nodes.  Nothing in the builder says that the
grammar gives only such nodes; a node of another form is an error.  This file shows that no text
gives one.  The only thing that a text can be refused for after it has been matched is a target that
cannot be assigned to, and then the report is about the first one.

## The rules and what they leave

`Rule.Leaves` says for every rule which nodes it leaves, in terms of what the builder does with
them: an expression leaves a node that is built as an expression, and so on.  `Rule.leaves` is the
same in all modes.  The other two modes only occur inside words, and there no rule leaves a node,
except for the characters of a string.

It is closed under the grammar (`closed_leaves`).  This is one fact for each rule: if the rules that
its pattern calls leave such nodes, then so does the rule.  The facts about the builder are those of
`ScriptTrace.Proofs.Building`; what is added here is how each pattern puts the nodes together.

* `Rule.Leaves`: the nodes that rules leave.
* `closed_leaves`: they are what the grammar gives.
* `Program.ofNode_of_leaves`: what building makes of the tree of a script.
* `parseScript_refuses_only_targets`: what a matched script is refused for.
-/

namespace ScriptTrace

open Peg Pattern ScriptTrace.Language

/-- A single node with a property. -/
def Single (P : Node Rule → Prop) (nodes : List (Node Rule)) : Prop :=
  ∃ node, nodes = [node] ∧ P node

/-- The nodes that a rule leaves where blanks are skipped. -/
def Rule.Leaves : Rule → List (Node Rule) → Prop
  | .identifier => Single (IsWord .identifier)
  | .identifierName => Single (IsWord .identifierName)
  | .variableKind => Single (IsWord .variableKind)
  | .numericLiteral => Single (IsWord .numericLiteral)
  | .stringLiteral => Single (IsWord .stringLiteral)
  | .booleanLiteral => Single (IsWord .booleanLiteral)
  | .nullLiteral => Single (IsWord .nullLiteral)
  | .unaryOperator => Single (IsWord .unaryOperator)
  | .binaryOperator => Single (IsWord .binaryOperator)
  | .endOfInput => Single (IsWord .endOfInput)
  | .kwFunction | .kwIf | .kwElse | .kwWhile | .kwFor | .kwReturn | .formalParameters =>
    Single fun node => invalidTargets node = []
  | .assignOperator | .smartSemicolon => fun nodes => nodes = []
  | .expression | .assignmentExpression | .binaryExpression | .unaryExpression | .prefixExpression
  | .memberExpression | .primaryExpression | .objectLiteral | .arrayLiteral
  | .functionExpression => Single BuildsExpression
  | .dotProperty | .callArguments => Single IsSuffix
  | .propertyDefinition => Single IsProperty
  | .functionBody => Single IsBody
  | .variableDeclaration => Single IsDeclarator
  | .forInit => Single (NodeOf .forInit IsLoopStart)
  | .forTest => Single (NodeOf .forTest IsOptional)
  | .forUpdate => Single (NodeOf .forUpdate IsOptional)
  | .statement | .functionDeclaration | .variableStatement | .ifStatement | .whileStatement
  | .forStatement | .returnStatement | .blockStatement | .emptyStatement
  | .expressionStatement => Single BuildsStatement
  | .script => Single (NodeOf .script fun children =>
      ∀ child ∈ children, BuildsStatement child ∨ IsWord .endOfInput child)
  | .whitespace | .comment | .lineTerminator | .identifierStart | .identifierPart | .reservedWord
  | .doubleStringCharacters | .singleStringCharacters | .escapeSequence => fun _ => True

/-- The nodes that a rule leaves.  Inside a word a rule that calls no other leaves none, and inside
a string there are no targets. -/
def Rule.leaves : Mode → Rule → List (Node Rule) → Prop
  | .free, r, nodes => r.Leaves nodes
  | .atomic, r, nodes => (pattern r).calls = [] → nodes = []
  | .compound, r, nodes => r = .doubleStringCharacters ∨ r = .singleStringCharacters →
      ∀ node ∈ nodes, invalidTargets node = []

/-! ## Reading patterns -/

section Patterns

variable {f : Rule → List (Node Rule) → Prop} {p : Pattern Rule} {nodes : List (Node Rule)}

/-- Given characters leave no nodes in front. -/
theorem Peg.Pattern.Leaves.after_word {s : String} (h : (Pattern.seq (word s) p).Leaves f nodes) :
    p.Leaves f nodes := by
  obtain ⟨_, _, rfl, h, rfl⟩ := h
  exact h

theorem Single.forall_mem {P : Node Rule → Prop} (h : Single P nodes) : ∀ node ∈ nodes, P node := by
  obtain ⟨node, rfl, holds⟩ := h
  exact List.forall_mem_singleton.mpr holds

theorem Single.imp {P Q : Node Rule → Prop} (h : Single P nodes) (le : ∀ node, P node → Q node) :
    Single Q nodes := by
  obtain ⟨node, rfl, holds⟩ := h
  exact ⟨node, rfl, le node holds⟩

/-- All nodes of a pattern that calls one rule are nodes of that rule. -/
theorem forall_mem_of_calls {r : Rule} {P : Node Rule → Prop}
    (single : ∀ nodes, r.Leaves nodes → Single P nodes) (only : ∀ name ∈ p.calls, name = r)
    (h : p.Leaves (Rule.leaves .free) nodes) : ∀ node ∈ nodes, P node := by
  refine h.forall_mem fun name called nodes left => ?_
  rw [only name called] at left
  exact (single nodes left).forall_mem

theorem invalidTargetsIn_eq_nil (each : ∀ node ∈ nodes, invalidTargets node = []) :
    invalidTargetsIn nodes = [] := by
  induction nodes with
  | nil => rfl
  | cons node rest ih =>
    obtain ⟨here, further⟩ := List.forall_mem_cons.mp each
    rw [invalidTargetsIn, here, ih further, List.append_nil]

end Patterns

section Rules

variable {a b : Nat} {text : List Char} {children : List (Node Rule)}

/-! ## Words -/

/-- There are no targets in a word whose pattern calls only rules that call no others: it has no
children. -/
theorem invalidTargets_of_atomic {r : Rule} (ne : r ≠ .assignmentExpression)
    (flat : ∀ name ∈ (pattern r).calls, (pattern name).calls = [])
    (left : (pattern r).Leaves (Rule.leaves .atomic) children) :
    invalidTargets (.mk r a b text children) = [] := by
  obtain rfl : children = [] := left.eq_nil fun name called _ left => left (flat name called)
  exact invalidTargets_of_ne ne a b text []

theorem isWord_of_atomic {r : Rule} (ne : r ≠ .assignmentExpression)
    (flat : ∀ name ∈ (pattern r).calls, (pattern name).calls = []) (admits : r.Admits text)
    (left : (pattern r).Leaves (Rule.leaves .atomic) children) :
    IsWord r (.mk r a b text children) :=
  ⟨rfl, invalidTargets_of_atomic ne flat left, admits⟩

/-- A word that is spelled without calling rules has no children. -/
theorem isWord_of_calls_eq_nil {r : Rule} (ne : r ≠ .assignmentExpression)
    (flat : (pattern r).calls = []) (admits : r.Admits text)
    (left : (pattern r).Leaves (Rule.leaves .free) children) :
    IsWord r (.mk r a b text children) := by
  obtain rfl : children = [] := left.eq_nil (flat ▸ List.forall_mem_nil _)
  exact ⟨rfl, invalidTargets_of_ne ne a b text [], admits⟩

theorem isWord_stringLiteral
    (left : (pattern .stringLiteral).Leaves (Rule.leaves .compound) children) :
    IsWord .stringLiteral (.mk .stringLiteral a b text children) := by
  refine ⟨rfl, ?_, trivial⟩
  rw [invalidTargets_of_ne (by decide)]
  refine invalidTargetsIn_eq_nil (left.forall_mem fun name called nodes left => left ?_)
  exact (by decide : ∀ name ∈ (pattern .stringLiteral).calls,
    name = .doubleStringCharacters ∨ name = .singleStringCharacters) name called

theorem admits_variableKind (spells : (pattern .variableKind).Spells .atomic text) :
    Rule.variableKind.Admits text := by
  obtain ⟨t, _, word, rfl, rfl⟩ := exists_of_spells_seq spells
  rw [List.append_nil]
  obtain rfl | rfl | rfl := word <;> rfl

theorem admits_unaryOperator (spells : (pattern .unaryOperator).Spells .free text) :
    Rule.unaryOperator.Admits text := by
  obtain rfl | rfl | rfl := spells <;> rfl

theorem admits_binaryOperator (spells : (pattern .binaryOperator).Spells .free text) :
    Rule.binaryOperator.Admits text := by
  obtain rfl | rfl | rfl | rfl | rfl | rfl | rfl | rfl | rfl | rfl | rfl | rfl | rfl | rfl | rfl :=
    spells <;> rfl

/-! ## Expressions -/

theorem leaves_assignmentExpression
    (h : (pattern .assignmentExpression).Leaves (Rule.leaves .free) children) :
    BuildsExpression (.mk .assignmentExpression a b text children) := by
  obtain ⟨_, _, ⟨target, rfl, ht⟩, h, rfl⟩ := h
  obtain ⟨_, _, rfl, ⟨value, rfl, hv⟩, rfl⟩ := h
  exact buildsExpression_assignment ht hv

theorem leaves_binaryExpression
    (h : (pattern .binaryExpression).Leaves (Rule.leaves .free) children) :
    BuildsExpression (.mk .binaryExpression a b text children) := by
  obtain ⟨_, _, ⟨operand, rfl, ho⟩, ⟨links, each, rfl⟩, rfl⟩ := h
  refine buildsExpression_chain ho fun link mem => ?_
  obtain ⟨_, _, ⟨operator, rfl, hw⟩, ⟨operand, rfl, he⟩, rfl⟩ := each link mem
  exact ⟨operator, operand, rfl, hw, he⟩

theorem leaves_prefixExpression
    (h : (pattern .prefixExpression).Leaves (Rule.leaves .free) children) :
    BuildsExpression (.mk .prefixExpression a b text children) := by
  obtain ⟨_, _, ⟨operator, rfl, ho⟩, ⟨operand, rfl, he⟩, rfl⟩ := h
  exact buildsExpression_prefix ho he

theorem leaves_memberExpression
    (h : (pattern .memberExpression).Leaves (Rule.leaves .free) children) :
    BuildsExpression (.mk .memberExpression a b text children) := by
  obtain ⟨_, suffixes, ⟨primary, rfl, hp⟩, h, rfl⟩ := h
  refine buildsExpression_member hp (h.forall_mem ?_)
  refine List.forall_mem_cons.mpr ⟨fun _ left => Single.forall_mem left, ?_⟩
  exact List.forall_mem_singleton.mpr fun _ left => Single.forall_mem left

theorem leaves_dotProperty (h : (pattern .dotProperty).Leaves (Rule.leaves .free) children) :
    IsSuffix (.mk .dotProperty a b text children) := by
  obtain ⟨name, rfl, hn⟩ := h.after_word
  exact Or.inl ⟨a, b, text, [name], rfl, name, rfl, hn.invalidTargets_eq⟩

theorem leaves_callArguments (h : (pattern .callArguments).Leaves (Rule.leaves .free) children) :
    IsSuffix (.mk .callArguments a b text children) := by
  refine Or.inr ⟨a, b, text, children, rfl, ?_⟩
  exact forall_mem_of_calls (r := .expression) (fun _ left => left) (by decide) h

theorem leaves_primaryExpression
    (h : (pattern .primaryExpression).Leaves (Rule.leaves .free) children) :
    Single BuildsExpression children := by
  obtain h | h | h | h | h | h | h | h | h := h
  · exact h
  · exact h
  · exact h
  · exact h.imp fun _ word => word.buildsExpression (by decide)
  · exact h.imp fun _ word => word.buildsExpression (by decide)
  · exact h.imp fun _ word => word.buildsExpression (by decide)
  · exact h.imp fun _ word => word.buildsExpression (by decide)
  · exact h.imp fun _ word => word.buildsExpression (by decide)
  · obtain ⟨_, _, ⟨e, rfl, he⟩, rfl, rfl⟩ := h.after_word
    exact ⟨e, rfl, he⟩

theorem leaves_objectLiteral (h : (pattern .objectLiteral).Leaves (Rule.leaves .free) children) :
    BuildsExpression (.mk .objectLiteral a b text children) :=
  buildsExpression_object
    (forall_mem_of_calls (r := .propertyDefinition) (fun _ left => left) (by decide) h)

theorem leaves_propertyDefinition
    (h : (pattern .propertyDefinition).Leaves (Rule.leaves .free) children) :
    IsProperty (.mk .propertyDefinition a b text children) := by
  obtain ⟨keys, _, words, h, rfl⟩ := h
  have keyed : Single IsKey keys := by
    obtain h | h | h := words
    · exact h.imp fun _ word => Or.inl word
    · exact h.imp fun _ word => Or.inr (Or.inl word)
    · exact h.imp fun _ word => Or.inr (Or.inr word)
  obtain ⟨key, rfl, hk⟩ := keyed
  obtain ⟨value, rfl, hv⟩ := h.after_word
  exact ⟨a, b, text, _, rfl, key, value, rfl, hk, hv⟩

theorem leaves_arrayLiteral (h : (pattern .arrayLiteral).Leaves (Rule.leaves .free) children) :
    BuildsExpression (.mk .arrayLiteral a b text children) :=
  buildsExpression_array
    (forall_mem_of_calls (r := .expression) (fun _ left => left) (by decide) h)

theorem leaves_functionExpression
    (h : (pattern .functionExpression).Leaves (Rule.leaves .free) children) :
    BuildsExpression (.mk .functionExpression a b text children) := by
  obtain ⟨_, _, ⟨word, rfl, hw⟩, h, rfl⟩ := h
  obtain ⟨_, _, name, h, rfl⟩ := h
  obtain ⟨_, _, ⟨parameters, rfl, hp⟩, ⟨body, rfl, hb⟩, rfl⟩ := h
  obtain ⟨name, rfl, hn⟩ | rfl := name
  · exact buildsExpression_namedFunction hw hn.invalidTargets_eq hp hb
  · exact buildsExpression_function hw hp hb

/-! ## Statements -/

theorem leaves_functionDeclaration
    (h : (pattern .functionDeclaration).Leaves (Rule.leaves .free) children) :
    BuildsStatement (.mk .functionDeclaration a b text children) := by
  obtain ⟨_, _, ⟨word, rfl, hw⟩, h, rfl⟩ := h
  obtain ⟨_, _, ⟨name, rfl, hn⟩, h, rfl⟩ := h
  obtain ⟨_, _, ⟨parameters, rfl, hp⟩, ⟨body, rfl, hb⟩, rfl⟩ := h
  exact buildsStatement_function hw hn.invalidTargets_eq hp hb

theorem leaves_formalParameters
    (h : (pattern .formalParameters).Leaves (Rule.leaves .free) children) :
    invalidTargets (.mk .formalParameters a b text children) = [] := by
  rw [invalidTargets_of_ne (by decide)]
  have words := forall_mem_of_calls (r := .identifier) (fun _ left => left) (by decide) h
  exact invalidTargetsIn_eq_nil fun node mem => (words node mem).invalidTargets_eq

theorem leaves_functionBody (h : (pattern .functionBody).Leaves (Rule.leaves .free) children) :
    IsBody (.mk .functionBody a b text children) :=
  ⟨a, b, text, children, rfl,
    forall_mem_of_calls (r := .statement) (fun _ left => left) (by decide) h⟩

theorem leaves_variableStatement
    (h : (pattern .variableStatement).Leaves (Rule.leaves .free) children) :
    BuildsStatement (.mk .variableStatement a b text children) := by
  obtain ⟨_, declarators, ⟨kind, rfl, hk⟩, h, rfl⟩ := h
  refine buildsStatement_variables hk (h.forall_mem ?_)
  have declarator : ∀ nodes, Rule.leaves .free .variableDeclaration nodes →
      ∀ node ∈ nodes, IsDeclarator node := fun _ left => Single.forall_mem left
  have semicolon : ∀ nodes, Rule.leaves .free .smartSemicolon nodes →
      ∀ node ∈ nodes, IsDeclarator node := by
    rintro nodes rfl
    exact List.forall_mem_nil _
  exact List.forall_mem_cons.mpr ⟨declarator,
    List.forall_mem_cons.mpr ⟨declarator, List.forall_mem_singleton.mpr semicolon⟩⟩

theorem leaves_variableDeclaration
    (h : (pattern .variableDeclaration).Leaves (Rule.leaves .free) children) :
    IsDeclarator (.mk .variableDeclaration a b text children) := by
  obtain ⟨_, _, ⟨name, rfl, hn⟩, h, rfl⟩ := h
  refine ⟨a, b, text, _, rfl, name, hn.invalidTargets_eq, ?_⟩
  rcases h with h | rfl
  · obtain ⟨init, rfl, hi⟩ := h.after_word
    exact Or.inr ⟨init, rfl, hi⟩
  · exact Or.inl rfl

theorem leaves_ifStatement (h : (pattern .ifStatement).Leaves (Rule.leaves .free) children) :
    BuildsStatement (.mk .ifStatement a b text children) := by
  obtain ⟨_, _, ⟨word, rfl, hw⟩, head, rfl⟩ := h
  obtain ⟨_, _, ⟨test, rfl, ht⟩, branches, rfl⟩ := head.after_word
  obtain ⟨_, _, ⟨consequent, rfl, hc⟩, last, rfl⟩ := branches.after_word
  rcases last with last | rfl
  · obtain ⟨_, _, ⟨other, rfl, ho⟩, ⟨alternate, rfl, ha⟩, rfl⟩ := last
    exact buildsStatement_ifElse hw ht hc ho ha
  · exact buildsStatement_if hw ht hc

theorem leaves_whileStatement
    (h : (pattern .whileStatement).Leaves (Rule.leaves .free) children) :
    BuildsStatement (.mk .whileStatement a b text children) := by
  obtain ⟨_, _, ⟨word, rfl, hw⟩, head, rfl⟩ := h
  obtain ⟨_, _, ⟨test, rfl, ht⟩, last, rfl⟩ := head.after_word
  obtain ⟨body, rfl, hb⟩ := last.after_word
  exact buildsStatement_while hw ht hb

theorem leaves_forStatement (h : (pattern .forStatement).Leaves (Rule.leaves .free) children) :
    BuildsStatement (.mk .forStatement a b text children) := by
  obtain ⟨_, _, ⟨word, rfl, hw⟩, head, rfl⟩ := h
  obtain ⟨_, _, ⟨start, rfl, hs⟩, afterStart, rfl⟩ := head.after_word
  obtain ⟨_, _, ⟨test, rfl, ht⟩, afterTest, rfl⟩ := afterStart.after_word
  obtain ⟨_, _, ⟨update, rfl, hu⟩, last, rfl⟩ := afterTest.after_word
  obtain ⟨body, rfl, hb⟩ := last.after_word
  exact buildsStatement_for hw hs ht hu hb

theorem leaves_forInit (h : (pattern .forInit).Leaves (Rule.leaves .free) children) :
    NodeOf .forInit IsLoopStart (.mk .forInit a b text children) := by
  refine ⟨a, b, text, children, rfl, ?_⟩
  rcases h with (h | h) | rfl
  · obtain ⟨_, declarators, ⟨kind, rfl, hk⟩, h, rfl⟩ := h
    refine Or.inr ⟨kind, declarators, rfl, hk, ?_⟩
    exact forall_mem_of_calls (r := .variableDeclaration) (fun _ left => left) (by decide) h
  · exact Or.inl (Or.inr h)
  · exact Or.inl (Or.inl rfl)

theorem leaves_returnStatement
    (h : (pattern .returnStatement).Leaves (Rule.leaves .free) children) :
    BuildsStatement (.mk .returnStatement a b text children) := by
  obtain ⟨_, _, ⟨word, rfl, hw⟩, ⟨argument, _, ha, rfl, rfl⟩, rfl⟩ := h
  rw [List.append_nil]
  exact buildsStatement_return hw ha.symm

theorem leaves_blockStatement
    (h : (pattern .blockStatement).Leaves (Rule.leaves .free) children) :
    BuildsStatement (.mk .blockStatement a b text children) :=
  buildsStatement_block
    (forall_mem_of_calls (r := .statement) (fun _ left => left) (by decide) h)

theorem leaves_expressionStatement
    (h : (pattern .expressionStatement).Leaves (Rule.leaves .free) children) :
    BuildsStatement (.mk .expressionStatement a b text children) := by
  obtain ⟨_, _, ⟨e, rfl, he⟩, rfl, rfl⟩ := h
  exact buildsStatement_expression he

theorem leaves_script (h : (pattern .script).Leaves (Rule.leaves .free) children) :
    ∀ child ∈ children, BuildsStatement child ∨ IsWord .endOfInput child := by
  refine h.forall_mem (List.forall_mem_cons.mpr ⟨fun nodes left child mem => ?_, ?_⟩)
  · exact Or.inl (Single.forall_mem left child mem)
  · refine List.forall_mem_singleton.mpr fun nodes left child mem => ?_
    exact Or.inr (Single.forall_mem left child mem)

/-- What each rule leaves where blanks are skipped, if the rules that its pattern calls leave what
they should. -/
theorem leaves_free (r : Rule) (spells : (pattern r).Spells ((kind r).inner .free) text)
    (left : (pattern r).Leaves (Rule.leaves ((kind r).inner .free)) children) :
    r.Leaves (grammar.nodesOf .free r a b text children) := by
  cases r with
  | endOfInput => exact ⟨_, rfl, isWord_of_calls_eq_nil (by decide) rfl trivial left⟩
  | unaryOperator =>
    exact ⟨_, rfl, isWord_of_calls_eq_nil (by decide) rfl (admits_unaryOperator spells) left⟩
  | binaryOperator =>
    exact ⟨_, rfl, isWord_of_calls_eq_nil (by decide) rfl (admits_binaryOperator spells) left⟩
  | identifier => exact ⟨_, rfl, isWord_of_atomic (by decide) (by decide) trivial left⟩
  | identifierName => exact ⟨_, rfl, isWord_of_atomic (by decide) (by decide) trivial left⟩
  | booleanLiteral => exact ⟨_, rfl, isWord_of_atomic (by decide) (by decide) trivial left⟩
  | nullLiteral => exact ⟨_, rfl, isWord_of_atomic (by decide) (by decide) trivial left⟩
  | variableKind =>
    exact ⟨_, rfl, isWord_of_atomic (by decide) (by decide) (admits_variableKind spells) left⟩
  | numericLiteral =>
    exact ⟨_, rfl, isWord_of_atomic (by decide) (by decide)
      (Number.ofNumeral?_isSome_of_spells spells) left⟩
  | stringLiteral => exact ⟨_, rfl, isWord_stringLiteral left⟩
  | kwFunction | kwIf | kwElse | kwWhile | kwFor | kwReturn =>
    exact ⟨_, rfl, invalidTargets_of_atomic (by decide) (by decide) left⟩
  | assignOperator => exact left.eq_nil (List.forall_mem_nil _)
  | smartSemicolon => exact left.eq_nil (List.forall_mem_nil _)
  | expression => exact left.elim id id
  | unaryExpression => exact left.elim id id
  | primaryExpression => exact leaves_primaryExpression left
  | assignmentExpression => exact ⟨_, rfl, leaves_assignmentExpression left⟩
  | binaryExpression => exact ⟨_, rfl, leaves_binaryExpression left⟩
  | prefixExpression => exact ⟨_, rfl, leaves_prefixExpression left⟩
  | memberExpression => exact ⟨_, rfl, leaves_memberExpression left⟩
  | dotProperty => exact ⟨_, rfl, leaves_dotProperty left⟩
  | callArguments => exact ⟨_, rfl, leaves_callArguments left⟩
  | objectLiteral => exact ⟨_, rfl, leaves_objectLiteral left⟩
  | propertyDefinition => exact ⟨_, rfl, leaves_propertyDefinition left⟩
  | arrayLiteral => exact ⟨_, rfl, leaves_arrayLiteral left⟩
  | functionExpression => exact ⟨_, rfl, leaves_functionExpression left⟩
  | statement =>
    obtain h | h | h | h | h | h | h | h | h := left <;> exact h
  | functionDeclaration => exact ⟨_, rfl, leaves_functionDeclaration left⟩
  | formalParameters => exact ⟨_, rfl, leaves_formalParameters left⟩
  | functionBody => exact ⟨_, rfl, leaves_functionBody left⟩
  | variableStatement => exact ⟨_, rfl, leaves_variableStatement left⟩
  | variableDeclaration => exact ⟨_, rfl, leaves_variableDeclaration left⟩
  | ifStatement => exact ⟨_, rfl, leaves_ifStatement left⟩
  | whileStatement => exact ⟨_, rfl, leaves_whileStatement left⟩
  | forStatement => exact ⟨_, rfl, leaves_forStatement left⟩
  | forInit => exact ⟨_, rfl, leaves_forInit left⟩
  | forTest => exact ⟨_, rfl, a, b, text, children, rfl, left.symm⟩
  | forUpdate => exact ⟨_, rfl, a, b, text, children, rfl, left.symm⟩
  | returnStatement => exact ⟨_, rfl, leaves_returnStatement left⟩
  | blockStatement => exact ⟨_, rfl, leaves_blockStatement left⟩
  | emptyStatement =>
    obtain rfl : children = [] := left
    exact ⟨_, rfl, buildsStatement_empty⟩
  | expressionStatement => exact ⟨_, rfl, leaves_expressionStatement left⟩
  | script => exact ⟨_, rfl, a, b, text, children, rfl, leaves_script left⟩
  | whitespace | comment | lineTerminator | identifierStart | identifierPart | reservedWord
  | doubleStringCharacters | singleStringCharacters | escapeSequence => exact trivial

/-- Inside a word a rule that calls no other leaves no node.  Only a string leaves one there, and it
calls the rules for its characters. -/
theorem leaves_atomic (r : Rule)
    (left : (pattern r).Leaves (Rule.leaves ((kind r).inner .atomic)) children) :
    Rule.leaves .atomic r (grammar.nodesOf .atomic r a b text children) := by
  intro flat
  have none : children = [] := left.eq_nil (flat ▸ List.forall_mem_nil _)
  have outside : (kind r).isVisible = false ∨ (kind r).outer .atomic = .atomic := by
    cases r with
    | stringLiteral => exact nomatch flat
    | _ => decide
  rw [Grammar.nodesOf, if_neg, none]
  rintro ⟨visible, kept⟩
  rcases outside with hidden | atomic
  · exact absurd visible (by rw [show grammar.kind r = kind r from rfl, hidden]; decide)
  · exact kept atomic

/-- The characters of a string are a word without children. -/
theorem leaves_compound (r : Rule)
    (left : (pattern r).Leaves (Rule.leaves ((kind r).inner .compound)) children) :
    Rule.leaves .compound r (grammar.nodesOf .compound r a b text children) := by
  rintro (rfl | rfl)
  · exact List.forall_mem_singleton.mpr (invalidTargets_of_atomic (by decide) (by decide) left)
  · exact List.forall_mem_singleton.mpr (invalidTargets_of_atomic (by decide) (by decide) left)

end Rules

/-- **The nodes that the rules leave are closed under the grammar.** -/
theorem closed_leaves : grammar.Closed Rule.leaves where
  trivia left := left.eq_nil (by
    refine List.forall_mem_cons.mpr ⟨fun _ left => left rfl, ?_⟩
    exact List.forall_mem_singleton.mpr fun _ left => left rfl)
  rule {mode r _ _ _ _} spells left := by
    cases mode with
    | free => exact leaves_free r spells left
    | atomic => exact leaves_atomic r left
    | compound => exact leaves_compound r left

/-! ## Scripts -/

/-- The nodes that are matched are those that the rule leaves. -/
theorem leaves_of_parseRule {r : Rule} {source : String} {nodes : List (Node Rule)}
    (accepted : parseRule r source = .ok nodes) : r.Leaves nodes := by
  unfold parseRule at accepted
  match read : grammar.read r source.toList with
  | (.matched nodes' q, log) =>
    rw [read] at accepted
    obtain rfl : nodes' = nodes := Except.ok.inj accepted
    exact closed_leaves.leaves_of_read (congrArg Prod.fst read)
  | (.failed, log) | (.exhausted, log) =>
    rw [read] at accepted
    exact nomatch accepted

/-- The program of the node of a script, up to the invalid targets in it. -/
theorem Program.ofNode_of_leaves {tree : Node Rule} (left : Rule.script.Leaves [tree]) :
    (∃ program, Program.ofNode tree = .ok program) ∧ invalidTargets tree = [] ∨
      ∃ target, Program.ofNode tree = .error (.invalidTarget (nodeSpan target)) ∧
        (invalidTargets tree).head? = some target := by
  obtain ⟨_, ⟨⟩, a, b, text, children, rfl, each⟩ := left
  rw [invalidTargets_of_ne (by decide)]
  have built := stopsAt_buildStatements each
  have run : Program.ofNode (.mk .script a b text children) =
      (buildStatements children #[] >>= fun built => .ok ⟨built.1, built.2⟩) := rfl
  rw [run]
  cases bad : invalidTargetsIn children with
  | nil =>
    rw [bad] at built
    obtain ⟨body, functions, ran, -⟩ := built #[]
    rw [ran]
    exact Or.inl ⟨⟨_, rfl⟩, rfl⟩
  | cons target rest =>
    rw [bad] at built
    rw [built #[]]
    exact Or.inr ⟨target, rfl, rfl⟩

/-- The program of a text is that of the one node that is matched. -/
theorem parseScript_of_parseRule {source : String} {tree : Node Rule}
    (accepted : parseRule .script source = .ok [tree]) :
    parseScript source = (Program.ofNode tree).mapError .unbuildable := by
  rw [parseScript, accepted]
  rfl

theorem parseScript_of_read {source : String} {tree : Node Rule} {q : Peg.Place}
    (matched : (Language.grammar.read .script source.toList).1 = .matched [tree] q) :
    parseScript source = (Program.ofNode tree).mapError .unbuildable := by
  refine parseScript_of_parseRule ?_
  unfold parseRule
  match answer : Language.grammar.read .script source.toList with
  | (outcome, log) =>
    rw [answer] at matched
    rw [show outcome = _ from matched]

/-- **A text that the grammar accepts is refused only for an assignment.**  Its match is one tree.
It is refused exactly if an assignment in the tree has a target that cannot be assigned to, and the
report is about the first one: those inside a target come before the target, and that comes before
those in the right side. -/
theorem parseScript_refuses_only_targets (source : String) (nodes : List (Node Rule))
    (accepted : parseRule .script source = .ok nodes) :
    ∃ tree, nodes = [tree] ∧
      ((∃ error, parseScript source = .error error) ↔
        ∃ assignment target : Node Rule, assignment.Within tree ∧ assignment.Assigns target ∧
          isTarget target = false) ∧
      ∀ error, parseScript source = .error error →
        ∃ target, (invalidTargets tree).head? = some target ∧
          error = .unbuildable (.invalidTarget (nodeSpan target)) ∧
          error.message source = Text.stretchReport source.toList target.start target.stop
            "Invalid left-hand side in assignment" := by
  have left := leaves_of_parseRule accepted
  obtain ⟨tree, rfl, -⟩ := id left
  refine ⟨tree, rfl, ?_⟩
  have invalid : (∃ assignment target : Node Rule, assignment.Within tree ∧
      assignment.Assigns target ∧ isTarget target = false) ↔
        ∃ target, target ∈ invalidTargets tree := by
    simp only [mem_invalidTargets_iff]
    exact exists_comm
  rw [invalid, parseScript_of_parseRule accepted]
  obtain ⟨⟨program, built⟩, none⟩ | ⟨target, stopped, first⟩ := Program.ofNode_of_leaves left
  · rw [built, none]
    refine ⟨⟨?_, ?_⟩, ?_⟩
    · rintro ⟨error, ⟨⟩⟩
    · rintro ⟨target, ⟨⟩⟩
    · rintro error ⟨⟩
  · rw [stopped]
    refine ⟨⟨fun _ => ⟨target, List.mem_of_head? first⟩, fun _ => ⟨_, rfl⟩⟩, ?_⟩
    rintro error ⟨⟩
    exact ⟨target, first, rfl, rfl⟩

/-- Three targets are calls here, and the one inside the target of the outer assignment is
reported. -/
theorem targetInsideTarget_is_reported :
    ∃ tree target : Node Rule,
      parseRule .script "(f() = 1).p = g() = h() = 2" = .ok [tree] ∧
      (invalidTargets tree).map nodeSpan = [⟨1, 4⟩, ⟨14, 17⟩, ⟨20, 23⟩] ∧
      (invalidTargets tree).head? = some target ∧
      parseScript "(f() = 1).p = g() = h() = 2" =
        .error (.unbuildable (.invalidTarget (nodeSpan target))) := by
  obtain ⟨nodes, accepted, spans⟩ := exists_ok_of_toOption_map
    (x := parseRule .script "(f() = 1).p = g() = h() = 2")
    (f := fun nodes => (invalidTargetsIn nodes).map nodeSpan)
    (b := [⟨1, 4⟩, ⟨14, 17⟩, ⟨20, 23⟩]) (by decide +kernel)
  obtain ⟨tree, rfl, refused, report⟩ := parseScript_refuses_only_targets _ nodes accepted
  rw [invalidTargetsIn, invalidTargetsIn, List.append_nil] at spans
  obtain ⟨target, rest, targets, -⟩ := List.map_eq_cons_iff.mp spans
  obtain ⟨assignment, invalid⟩ := (mem_invalidTargets_iff target tree).mp (by simp [targets])
  obtain ⟨error, stopped⟩ := refused.mpr ⟨assignment, target, invalid⟩
  obtain ⟨first, head, rfl, -⟩ := report error stopped
  exact ⟨tree, first, accepted, spans, head, stopped⟩

end ScriptTrace
