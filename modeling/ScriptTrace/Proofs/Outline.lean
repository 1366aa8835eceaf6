import Mathlib.Data.List.Forall2
import ScriptTrace.Proofs.AssignmentTargets
import ScriptTrace.Proofs.Recasting
import ScriptTrace.Proofs.SourceLayout

/-!
# What building looks at

Building looks at the rules of the nodes, at the offsets of their two ends, and at the texts of
names, numerals, operators and a few more words.  It does not look at the text of a statement or of
a compound expression.  The *outline* of a tree is what is left of it without those texts, and with
other offsets if one likes.

Trees of the same outline are built alike: if the first has a syntax tree, so has the second, and
the two syntax trees are the same up to their offsets (`ofNode_of_outline`).

## Which nodes are words

The builder takes some nodes for words without asking for their rule: the first child of a
declarator is a name, whatever its rule.  So the two trees cannot be any trees.  The first one has
to be a tree that the grammar gives, since then the children of a node are those that the pattern of
its rule leaves (`leaves_of_matches`).

* `outline`, `outlines`: what building looks at.
* `Build.Alike`: builders that go the same way.
* `Portable`, `Twin`: nodes that are built in the same way as others of their outlines.
* `portable_of_grown`: every node of a match is portable.
* `ofNode_of_outline`: programs.
-/

namespace ScriptTrace

open Peg (Node Pattern)
open ScriptTrace.Language (grammar)

/-! ## Outlines -/

/-- Whether the text of a node of a rule is looked at. -/
def Rule.isSpelled : Rule → Bool
  | .identifier | .identifierName | .variableKind | .numericLiteral | .booleanLiteral
  | .doubleStringCharacters | .singleStringCharacters | .unaryOperator | .binaryOperator => true
  | _ => false

mutual

/-- A node as building looks at it, with other offsets. -/
def outline (f : Nat → Nat) : Node Rule → Node Rule
  | .mk rule a b text children =>
    .mk rule (f a) (f b) (if rule.isSpelled then text else []) (outlines f children)

/-- Several nodes. -/
def outlines (f : Nat → Nat) : List (Node Rule) → List (Node Rule)
  | [] => []
  | node :: rest => outline f node :: outlines f rest

end

theorem outlines_eq_map (f : Nat → Nat) (nodes : List (Node Rule)) :
    outlines f nodes = nodes.map (outline f) := by
  induction nodes with
  | nil => rfl
  | cons node rest ih => rw [outlines, ih, List.map_cons]

theorem outlines_append {f f' : Nat → Nat} {xs ys xs' ys' : List (Node Rule)}
    (first : outlines f xs = outlines f' ys) (second : outlines f xs' = outlines f' ys') :
    outlines f (xs ++ xs') = outlines f' (ys ++ ys') := by
  simp only [outlines_eq_map, List.map_append] at first second ⊢
  rw [first, second]

section Outlines

variable {f f' : Nat → Nat} {rule : Rule} {a b : Nat} {text : List Char}
variable {node node' : Node Rule} {nodes nodes' : List (Node Rule)}

/-- A node of the same outline has the same rule and, up to the offsets, the same ends and
children. -/
theorem exists_of_outline (same : outline f (.mk rule a b text nodes) = outline f' node') :
    ∃ a' b' text' nodes', node' = .mk rule a' b' text' nodes' ∧ f a = f' a' ∧ f b = f' b' ∧
      (rule.isSpelled = true → text = text') ∧ outlines f nodes = outlines f' nodes' := by
  obtain ⟨rule', a', b', text', nodes'⟩ := node'
  obtain ⟨rfl, starts, stops, texts, children⟩ := Node.mk.inj same
  refine ⟨a', b', text', nodes', rfl, starts, stops, fun spelled => ?_, children⟩
  rwa [if_pos spelled, if_pos spelled] at texts

theorem rule_eq_of_outline (same : outline f node = outline f' node') :
    node'.rule = node.rule := by
  obtain ⟨rule, a, b, text, children⟩ := node
  obtain ⟨_, _, _, _, rfl, -⟩ := exists_of_outline same
  rfl

theorem outlines_children (same : outline f node = outline f' node') :
    outlines f node.children = outlines f' node'.children := by
  obtain ⟨rule, a, b, text, children⟩ := node
  obtain ⟨_, _, _, _, rfl, -, -, -, children⟩ := exists_of_outline same
  exact children

theorem text_eq_of_outline (same : outline f node = outline f' node')
    (spelled : node.rule.isSpelled = true) : node.text = node'.text := by
  obtain ⟨rule, a, b, text, children⟩ := node
  obtain ⟨_, _, _, _, rfl, -, -, texts, -⟩ := exists_of_outline same
  exact texts spelled

theorem span_of_ends {a' b' : Nat} (starts : f a = f' a') (stops : f b = f' b') :
    (Recast.moving f).span ⟨a, b⟩ = (Recast.moving f').span ⟨a', b'⟩ :=
  Span.mk.injEq .. ▸ ⟨starts, stops⟩

theorem span_of_outline (same : outline f node = outline f' node') :
    (Recast.moving f).span (nodeSpan node) = (Recast.moving f').span (nodeSpan node') := by
  obtain ⟨rule, a, b, text, children⟩ := node
  obtain ⟨_, _, _, _, rfl, starts, stops, -⟩ := exists_of_outline same
  exact span_of_ends starts stops

/-- The node of a rule, if it leaves one, has the same outline if its ends and its children have,
and its text if that is looked at. -/
theorem outlines_nodesOf {mode : Peg.Mode} {a' b' : Nat} {text' : List Char}
    (starts : f a = f' a') (stops : f b = f' b') (texts : rule.isSpelled = true → text = text')
    (same : outlines f nodes = outlines f' nodes') :
    outlines f (grammar.nodesOf mode rule a b text nodes) =
      outlines f' (grammar.nodesOf mode rule a' b' text' nodes') := by
  rw [Peg.Grammar.nodesOf, Peg.Grammar.nodesOf]
  split
  · simp only [outlines, outline, starts, stops, same]
    cases spelled : rule.isSpelled with
    | true => rw [texts spelled]
    | false => rfl
  · exact same

end Outlines

/-! ## Builders that go the same way -/

namespace Build

variable {α β α' β' : Type}

/-- Two arrays of functions are the same up to the offsets. -/
def SameFunctions (f f' : Nat → Nat) (fs gs : Array FunctionDefinition) : Prop :=
  fs.map (FunctionDefinition.recast (.moving f)) = gs.map (FunctionDefinition.recast (.moving f'))

/-- From arrays that are the same up to the offsets, where the first builder has a result the second
one has a related one. -/
def Alike (f f' : Nat → Nat) (R : α → β → Prop) (x : Build α) (y : Build β) : Prop :=
  ∀ ⦃fs gs : Array FunctionDefinition⦄, SameFunctions f f' fs gs → ∀ ⦃a fs'⦄, x fs = .ok (a, fs') →
    ∃ b gs', y gs = .ok (b, gs') ∧ R a b ∧ SameFunctions f f' fs' gs'

namespace Alike

variable {f f' : Nat → Nat} {R : α → β → Prop} {S : α' → β' → Prop}

theorem pure {a : α} {b : β} (related : R a b) :
    Alike f f' R (Pure.pure a) (Pure.pure b) := by
  intro fs gs same a' fs' built
  cases built
  exact ⟨b, gs, rfl, related, same⟩

/-- A builder that has no result goes with any other. -/
theorem throw (error : BuildError) (y : Build β) :
    Alike f f' R (throwThe BuildError error : Build α) y :=
  fun _ _ _ _ _ built => nomatch built

theorem bind {x : Build α} {y : Build β} {next : α → Build α'} {next' : β → Build β'}
    (first : Alike f f' R x y) (each : ∀ a b, R a b → Alike f f' S (next a) (next' b)) :
    Alike f f' S (x >>= next) (y >>= next') := by
  intro fs gs same c fs' built
  obtain ⟨a, fs₁, first', second⟩ := run_bind_eq_ok built
  obtain ⟨b, gs₁, there, related, same₁⟩ := first same first'
  obtain ⟨d, gs', there', related', same'⟩ := each a b related same₁ second
  refine ⟨d, gs', ?_, related', same'⟩
  show (y gs >>= fun p => next' p.1 p.2) = .ok (d, gs')
  rw [there]
  exact there'

/-- A function goes to the same index of both arrays. -/
theorem addFunction {g g' : FunctionDefinition}
    (same : g.recast (.moving f) = g'.recast (.moving f')) :
    Alike f f' Eq (Build.addFunction g) (Build.addFunction g') := by
  intro fs gs before id fs' built
  cases built
  have size : fs.size = gs.size := by
    rw [← Array.size_map, show fs.map _ = _ from before, Array.size_map]
  refine ⟨gs.size, gs.push g', rfl, size, ?_⟩
  rw [SameFunctions, Array.map_push, Array.map_push, same]
  exact congrArg (Array.push · _) before

end Alike

end Build

/-! ## The children of a node -/

/-- A rule that leaves a node leaves one node, of that rule.  The operands of a chain are nodes of
other rules, but each of them is one node too. -/
structure Rule.Stands (r : Rule) (nodes : List (Node Rule)) : Prop where
  visible : (grammar.kind r).isVisible = true → Single (fun node => node.rule = r) nodes
  operand : r = .unaryExpression → Single (fun _ => True) nodes

/-- **A match leaves the nodes of the rules that its pattern calls**, in the order of the
pattern. -/
theorem leaves_of_matches {mode : Peg.Mode} {pattern : Pattern Rule} {p q : Peg.Place}
    {nodes : List (Node Rule)} (h : grammar.Matches mode pattern p nodes q)
    (loud : mode ≠ .atomic) : pattern.Leaves Rule.Stands nodes := by
  have blank : ∀ {p zs q}, grammar.Matches .atomic (grammar.gap mode) p zs q → zs = [] := by
    intro p zs q skipped
    rw [Peg.Grammar.gap] at skipped
    split at skipped
    · exact (Language.trivia_of_matches skipped).1
    · cases skipped
      rfl
  induction h with
  | text _ | char _ _ | atStart _ | atEnd _ | absent _ => rfl
  | @rule mode name p q nodes body ih =>
    refine ⟨fun visible => ?_, ?_⟩
    · have kept : (grammar.kind name).outer mode ≠ .atomic := by
        cases grammar.kind name <;> simp [Peg.Kind.outer, loud]
      rw [Peg.Grammar.nodesOf, if_pos ⟨visible, kept⟩]
      exact ⟨_, rfl, rfl⟩
    · rintro rfl
      obtain prefixed | member := ih loud blank
      · exact (prefixed.visible rfl).imp fun _ _ => trivial
      · exact (member.visible rfl).imp fun _ _ => trivial
  | seq _ skipped _ ihFirst _ ihSecond =>
    obtain rfl := blank skipped
    exact ⟨_, _, ihFirst loud blank, ihSecond loud blank, rfl⟩
  | choiceFirst _ ih => exact .inl (ih loud blank)
  | choiceSecond _ ih => exact .inr (ih loud blank)
  | manyNil _ => exact ⟨[], List.forall_mem_nil _, rfl⟩
  | @manyOne _ _ _ _ nodes _ _ ih =>
    refine ⟨[nodes], List.forall_mem_singleton.mpr (ih loud blank), ?_⟩
    rw [List.flatten_singleton]
  | @manyCons _ _ _ _ _ _ xs _ _ _ skipped _ ihItem _ ihRest =>
    obtain rfl := blank skipped
    obtain ⟨parts, each, rfl⟩ := ihRest loud blank
    exact ⟨xs :: parts, List.forall_mem_cons.mpr ⟨ihItem loud blank, each⟩, rfl⟩
  | optionalSome _ ih => exact .inl (ih loud blank)
  | optionalNone => exact .inr rfl

/-- Whether the pattern of a rule leaves nodes below the node of the rule. -/
def Rule.hasParts (r : Rule) : Bool :=
  grammar.kind r != .atomic

/-- The nodes below a node of a match are those that the pattern of its rule leaves. -/
theorem shape_of_grown {source : List Char} {node : Node Rule} (grown : node.Grown grammar source)
    (outer : node.rule.hasParts = true) :
    (grammar.body node.rule).Leaves Rule.Stands node.children := by
  cases grown with
  | @mk mode rule p q children start kept body each =>
    refine leaves_of_matches body fun inner => ?_
    obtain ⟨visible, loud⟩ := kept
    cases kind : grammar.kind rule <;>
      simp_all [Node.rule, Rule.hasParts, Peg.Kind.inner, Peg.Kind.outer, Peg.Kind.isVisible]

/-- The first child of a declarator is a name. -/
theorem rule_of_declarator {name : Node Rule} {others : List (Node Rule)}
    (shape : (grammar.body .variableDeclaration).Leaves Rule.Stands (name :: others)) :
    name.rule = .identifier := by
  obtain ⟨_, _, names, -, children⟩ := shape
  obtain ⟨_, rfl, isName⟩ := names.visible rfl
  obtain ⟨rfl, -⟩ := List.cons.inj children
  exact isName

/-- The first child of a property is a name, perhaps a reserved one. -/
theorem rule_of_dotProperty {name : Node Rule} {others : List (Node Rule)}
    (shape : (grammar.body .dotProperty).Leaves Rule.Stands (name :: others)) :
    name.rule = .identifierName := by
  obtain ⟨_, children, isName⟩ := shape.after_word.visible rfl
  obtain ⟨rfl, -⟩ := List.cons.inj children
  exact isName

/-- The parameters of a function are names. -/
theorem rule_of_parameter {nodes : List (Node Rule)}
    (shape : (grammar.body .formalParameters).Leaves Rule.Stands nodes) :
    ∀ node ∈ nodes, node.rule = .identifier := by
  refine shape.forall_mem fun r called nodes stands node mem => ?_
  obtain rfl : r = .identifier := (by decide : ∀ r ∈ (grammar.body .formalParameters).calls,
    r = .identifier) r called
  obtain ⟨_, rfl, isName⟩ := stands.visible rfl
  rw [List.mem_singleton.mp mem, isName]

/-- The children of a function: the word that opens it, what stands before the parameters, the
parameters and the body. -/
theorem exists_of_function {names : Pattern Rule} {children : List (Node Rule)}
    (shape : (Pattern.inOrder (.rule .kwFunction)
      [names, .rule .formalParameters, .rule .functionBody]).Leaves Rule.Stands children) :
    ∃ word before parameters body, children = word :: (before ++ [parameters, body]) ∧
      names.Leaves Rule.Stands before ∧ parameters.rule = .formalParameters := by
  obtain ⟨_, _, words, ⟨before, _, named, ⟨_, _, formals, bodies, rfl⟩, rfl⟩, rfl⟩ := shape
  obtain ⟨word, rfl, -⟩ := words.visible rfl
  obtain ⟨parameters, rfl, isParameters⟩ := formals.visible rfl
  obtain ⟨body, rfl, -⟩ := bodies.visible rfl
  exact ⟨word, before, parameters, body, rfl, named, isParameters⟩

/-- The children of a function with a name. -/
theorem rules_of_namedFunction {names : Pattern Rule} {word name parameters body : Node Rule}
    (shape : (Pattern.inOrder (.rule .kwFunction)
      [names, .rule .formalParameters, .rule .functionBody]).Leaves Rule.Stands
        [word, name, parameters, body])
    (named : ∀ nodes, names.Leaves Rule.Stands nodes → ∀ node ∈ nodes, node.rule = .identifier) :
    name.rule = .identifier ∧ parameters.rule = .formalParameters := by
  obtain ⟨_, before, _, _, children, left, isParameters⟩ := exists_of_function shape
  obtain ⟨-, children⟩ := List.cons.inj children
  have lengths := congrArg List.length children
  simp only [List.length_cons, List.length_append, List.length_nil] at lengths
  obtain ⟨name', rfl⟩ := List.length_eq_one_iff.mp (show before.length = 1 by omega)
  obtain ⟨same, others⟩ := List.cons.inj children
  obtain ⟨same', -⟩ := List.cons.inj others
  rw [same, same']
  exact ⟨named _ left name' (List.mem_singleton_self name'), isParameters⟩

/-- The children of a function without a name. -/
theorem rule_of_unnamedFunction {names : Pattern Rule} {word parameters body : Node Rule}
    (shape : (Pattern.inOrder (.rule .kwFunction)
      [names, .rule .formalParameters, .rule .functionBody]).Leaves Rule.Stands
        [word, parameters, body]) : parameters.rule = .formalParameters := by
  obtain ⟨_, before, _, _, children, -, isParameters⟩ := exists_of_function shape
  obtain ⟨-, children⟩ := List.cons.inj children
  obtain ⟨-, last⟩ := @List.append_inj' _ [] _ before _ children rfl
  obtain ⟨rfl, -⟩ := List.cons.inj last
  exact isParameters

/-- The nodes of the same outline are built in the same way. -/
structure BuildsAlike (f f' : Nat → Nat) (node node' : Node Rule) : Prop where
  expression : (buildExpression node).Alike f f'
    (fun e e' => e.recast (.moving f) = e'.recast (.moving f')) (buildExpression node')
  statement : (buildStatement node).Alike f f'
    (fun s s' => s.recast (.moving f) = s'.recast (.moving f')) (buildStatement node')

/-- A node with the children that the pattern of its rule leaves, which is built in the same way as
all nodes of its outline; and so are the nodes below it. -/
inductive Portable (f f' : Nat → Nat) : Node Rule → Prop
  | intro {node : Node Rule}
      (shape : node.rule.hasParts = true →
        (grammar.body node.rule).Leaves Rule.Stands node.children)
      (builds : ∀ node', outline f node = outline f' node' → BuildsAlike f f' node node')
      (each : ∀ child ∈ node.children, Portable f f' child) : Portable f f' node

namespace Portable

variable {f f' : Nat → Nat} {node node' : Node Rule}

theorem each (h : Portable f f' node) : ∀ child ∈ node.children, Portable f f' child := by
  cases h with
  | intro _ _ each => exact each

theorem shape (h : Portable f f' node) (outer : node.rule.hasParts = true) :
    (grammar.body node.rule).Leaves Rule.Stands node.children := by
  cases h with
  | intro shape => exact shape outer

theorem builds (h : Portable f f' node) (same : outline f node = outline f' node') :
    BuildsAlike f f' node node' := by
  cases h with
  | intro _ builds => exact builds node' same

end Portable

/-- A portable node, and another node of the same outline. -/
structure Twin (f f' : Nat → Nat) (node node' : Node Rule) : Prop where
  portable : Portable f f' node
  same : outline f node = outline f' node'

/-- Several portable nodes, and other nodes of the same outlines. -/
abbrev Twins (f f' : Nat → Nat) : List (Node Rule) → List (Node Rule) → Prop :=
  List.Forall₂ (Twin f f')

section Twins

variable {f f' : Nat → Nat} {node node' : Node Rule} {nodes nodes' : List (Node Rule)}
variable {rule : Rule} {a b : Nat} {text : List Char}

theorem twins_of_outlines (each : ∀ node ∈ nodes, Portable f f' node)
    (same : outlines f nodes = outlines f' nodes') : Twins f f' nodes nodes' := by
  induction nodes generalizing nodes' with
  | nil =>
    cases nodes' with
    | nil => exact .nil
    | cons node' rest' => exact nomatch same
  | cons node rest ih =>
    cases nodes' with
    | nil => exact nomatch same
    | cons node' rest' =>
      obtain ⟨here, further⟩ := List.cons.inj same
      obtain ⟨own, others⟩ := List.forall_mem_cons.mp each
      exact .cons ⟨own, here⟩ (ih others further)

/-- A node of the same outline as one whose children are portable. -/
theorem exists_twins_of_outline (each : ∀ child ∈ nodes, Portable f f' child)
    (same : outline f (.mk rule a b text nodes) = outline f' node') :
    ∃ a' b' text' nodes', node' = .mk rule a' b' text' nodes' ∧ f a = f' a' ∧ f b = f' b' ∧
      (rule.isSpelled = true → text = text') ∧ Twins f f' nodes nodes' := by
  obtain ⟨a', b', text', nodes', rfl, starts, stops, texts, children⟩ := exists_of_outline same
  exact ⟨a', b', text', nodes', rfl, starts, stops, texts, twins_of_outlines each children⟩

namespace Twin

theorem exists_eq_mk (h : Twin f f' (.mk rule a b text nodes) node') :
    ∃ a' b' text' nodes', node' = .mk rule a' b' text' nodes' ∧ f a = f' a' ∧ f b = f' b' ∧
      (rule.isSpelled = true → text = text') ∧ Twins f f' nodes nodes' :=
  exists_twins_of_outline h.portable.each h.same

theorem children (h : Twin f f' node node') : Twins f f' node.children node'.children :=
  twins_of_outlines h.portable.each (outlines_children h.same)

theorem expression (h : Twin f f' node node') : (buildExpression node).Alike f f'
    (fun e e' => e.recast (.moving f) = e'.recast (.moving f')) (buildExpression node') :=
  (h.portable.builds h.same).expression

theorem statement (h : Twin f f' node node') : (buildStatement node).Alike f f'
    (fun s s' => s.recast (.moving f) = s'.recast (.moving f')) (buildStatement node') :=
  (h.portable.builds h.same).statement

theorem text_eq (h : Twin f f' node node') (spelled : node.rule.isSpelled = true) :
    node.text = node'.text :=
  text_eq_of_outline h.same spelled

end Twin

end Twins

/-! ## Words -/

section Words

variable {f f' : Nat → Nat} {node node' : Node Rule} {nodes nodes' : List (Node Rule)}

theorem Twin.name (h : Twin f f' node node') (spelled : node.rule.isSpelled = true) :
    (Recast.moving f).name (buildIdentifier node) =
      (Recast.moving f').name (buildIdentifier node') := by
  simp only [Recast.name, buildIdentifier, h.text_eq spelled, span_of_outline h.same]

theorem names_of_twins (twins : Twins f f' nodes nodes')
    (spelled : ∀ node ∈ nodes, node.rule.isSpelled = true) :
    (nodes.map buildIdentifier).map (Recast.moving f).name =
      (nodes'.map buildIdentifier).map (Recast.moving f').name := by
  induction twins with
  | nil => rfl
  | cons twin _ ih =>
    obtain ⟨own, others⟩ := List.forall_mem_cons.mp spelled
    simp only [List.map_cons, twin.name own, ih others]

theorem alike_buildNumeral (text : node.text = node'.text) :
    (buildNumeral node).Alike f f' Eq (buildNumeral node') := by
  rw [buildNumeral, buildNumeral, ← text]
  cases Number.ofNumeral? node.text with
  | some x => exact .pure rfl
  | none => exact .throw _ _

theorem alike_buildKind (text : node.text = node'.text) :
    (buildKind node).Alike f f' Eq (buildKind node') := by
  rw [buildKind, buildKind, ← text]
  cases DeclarationKind.ofWord? (String.ofList node.text) with
  | some kind => exact .pure rfl
  | none => exact .throw _ _

theorem alike_buildUnaryOperator (text : node.text = node'.text) :
    (buildUnaryOperator node).Alike f f' Eq (buildUnaryOperator node') := by
  rw [buildUnaryOperator, buildUnaryOperator, ← text]
  cases UnaryOperator.ofSymbol? (String.ofList node.text) with
  | some operator => exact .pure rfl
  | none => exact .throw _ _

theorem alike_buildBinaryOperator (text : node.text = node'.text) :
    (buildBinaryOperator node).Alike f f' Eq (buildBinaryOperator node') := by
  rw [buildBinaryOperator, buildBinaryOperator, ← text]
  cases BinaryOperator.ofSymbol? (String.ofList node.text) with
  | some operator => exact .pure rfl
  | none => exact .throw _ _

end Words

/-! ## What is built from lists of nodes -/

theorem Expression.span_recast (r : Recast) (e : Expression) :
    (e.recast r).span = r.span e.span := by
  cases e <;> rfl

/-- Only a name is a name with other offsets. -/
theorem Expression.exists_of_recast_identifier {r : Recast} {e : Expression} {name : Identifier}
    (h : .identifier name = e.recast r) : ∃ name', e = .identifier name' ∧ name = r.name name' := by
  cases e with
  | identifier name' => exact ⟨name', rfl, Expression.identifier.inj h⟩
  | _ => exact nomatch h

/-- Only a property is a property with other offsets. -/
theorem Expression.exists_of_recast_member {r : Recast} {e base : Expression} {span : Span}
    {property : Identifier} (h : .member span base property = e.recast r) :
    ∃ span' base' property', e = .member span' base' property' ∧ span = r.span span' ∧
      base = base'.recast r ∧ property = r.name property' := by
  cases e with
  | member span' base' property' => exact ⟨span', base', property', rfl, Expression.member.inj h⟩
  | _ => exact nomatch h

section Lists

variable {f f' : Nat → Nat} {nodes nodes' : List (Node Rule)}

/-- Expressions that are the same up to the offsets have the same ends up to the offsets. -/
theorem ends_of_recast {e e' : Expression} (same : e.recast (.moving f) = e'.recast (.moving f')) :
    f e.span.start = f' e'.span.start ∧ f e.span.stop = f' e'.span.stop := by
  have spans := congrArg Expression.span same
  rw [Expression.span_recast, Expression.span_recast] at spans
  exact Span.mk.inj spans

theorem alike_buildExpressions (twins : Twins f f' nodes nodes') :
    (buildExpressions nodes).Alike f f'
      (fun es es' => recastExpressions (.moving f) es = recastExpressions (.moving f') es')
      (buildExpressions nodes') := by
  induction twins with
  | nil =>
    rw [buildExpressions]
    exact .pure rfl
  | cons twin _ ih =>
    rw [buildExpressions, buildExpressions]
    refine twin.expression.bind fun e e' sameFirst => ?_
    refine ih.bind fun es es' sameRest => .pure ?_
    rw [recastExpressions, recastExpressions, sameFirst, sameRest]

/-- The operators and operands of a chain, after what has been built so far. -/
theorem alike_buildChain {links : List (List (Node Rule))} {chain chain' : Node Rule}
    {left left' : Expression}
    (shape : ∀ link ∈ links,
      (Pattern.seq (.rule .binaryOperator) (.rule .unaryExpression)).Leaves Rule.Stands link)
    (twins : Twins f f' links.flatten nodes')
    (sameLeft : left.recast (.moving f) = left'.recast (.moving f')) :
    (buildChain chain left links.flatten).Alike f f'
      (fun e e' => e.recast (.moving f) = e'.recast (.moving f'))
      (buildChain chain' left' nodes') := by
  induction links generalizing left left' nodes' with
  | nil =>
    obtain _ | _ := twins
    rw [List.flatten_nil, buildChain, buildChain]
    exact .pure sameLeft
  | cons link links ih =>
    obtain ⟨own, others⟩ := List.forall_mem_cons.mp shape
    obtain ⟨_, _, operators, operands, rfl⟩ := own
    obtain ⟨operator, rfl, isOperator⟩ := operators.visible rfl
    obtain ⟨operand, rfl, -⟩ := operands.operand rfl
    obtain _ | ⟨sameOperator, _ | ⟨sameOperand, further⟩⟩ := twins
    change (buildChain chain left (operator :: operand :: links.flatten)).Alike f f' _ _
    rw [buildChain, buildChain]
    have spelled : operator.rule.isSpelled = true := by rw [isOperator]; rfl
    refine (alike_buildBinaryOperator (sameOperator.text_eq spelled)).bind ?_
    rintro symbol _ rfl
    refine sameOperand.expression.bind fun right right' sameRight => ?_
    refine ih others further ?_
    have span := span_of_ends (ends_of_recast sameLeft).1 (ends_of_recast sameRight).2
    simp only [Expression.recast, sameLeft, sameRight, span]

/-- The properties and calls after an expression that has been built. -/
theorem alike_buildSuffixes {nodes nodes' : List (Node Rule)} {base base' : Expression}
    (twins : Twins f f' nodes nodes')
    (sameBase : base.recast (.moving f) = base'.recast (.moving f')) :
    (buildSuffixes base nodes).Alike f f'
      (fun e e' => e.recast (.moving f) = e'.recast (.moving f'))
      (buildSuffixes base' nodes') := by
  have starts := (ends_of_recast sameBase).1
  unfold buildSuffixes
  split
  · obtain _ | _ := twins
    exact .pure sameBase
  · rename_i name _ _
    obtain _ | ⟨own, further⟩ := twins
    have spelled : name.rule.isSpelled = true := by
      rw [rule_of_dotProperty (own.portable.shape rfl)]
      rfl
    obtain ⟨_, _, _, _, rfl, -, stops, -, _ | ⟨sameName, _⟩⟩ := own.exists_eq_mk
    refine alike_buildSuffixes further ?_
    simp only [Expression.recast, sameBase, sameName.name spelled, span_of_ends starts stops]
  · obtain _ | ⟨own, further⟩ := twins
    obtain ⟨_, _, _, _, rfl, -, stops, -, arguments⟩ := own.exists_eq_mk
    refine (alike_buildExpressions arguments).bind fun es es' sameArguments => ?_
    refine alike_buildSuffixes further ?_
    simp only [Expression.recast, sameBase, sameArguments, span_of_ends starts stops]
  · exact .throw _ _
termination_by sizeOf nodes

/-- The characters of a string stand in its one child. -/
theorem buildString_of_outline {node node' : Node Rule}
    (shape : (grammar.body .stringLiteral).Leaves Rule.Stands node.children)
    (same : outline f node = outline f' node') : buildString node = buildString node' := by
  obtain ⟨chars, children, spelled⟩ :
      ∃ chars, node.children = [chars] ∧ chars.rule.isSpelled = true := by
    obtain double | single := shape
    · obtain ⟨_, _, characters, rfl, children⟩ := double.after_word
      obtain ⟨chars, rfl, rule⟩ := characters.visible rfl
      exact ⟨chars, children, by rw [rule]; rfl⟩
    · obtain ⟨_, _, characters, rfl, children⟩ := single.after_word
      obtain ⟨chars, rfl, rule⟩ := characters.visible rfl
      exact ⟨chars, children, by rw [rule]; rfl⟩
  have below := outlines_children same
  rw [children] at below
  rw [buildString, buildString, children]
  cases others : node'.children with
  | nil =>
    rw [others] at below
    exact nomatch below
  | cons chars' rest =>
    rw [others] at below
    have text := text_eq_of_outline (List.cons.inj below).1 spelled
    exact congrArg (fun text => String.ofList (unescape text)) text

theorem alike_buildKey {node node' : Node Rule} (twin : Twin f f' node node') :
    (buildKey node).Alike f f' (fun k k' => (Recast.moving f).key k = (Recast.moving f').key k')
      (buildKey node') := by
  unfold buildKey
  rw [rule_eq_of_outline twin.same]
  split
  · rename_i isName
    rw [twin.text_eq (by rw [isName]; rfl)]
    exact .pure rfl
  · rename_i isString
    have shape := twin.portable.shape (by rw [isString]; rfl)
    rw [isString] at shape
    rw [buildString_of_outline shape twin.same]
    exact .pure rfl
  · rename_i isNumeral
    refine (alike_buildNumeral (twin.text_eq (by rw [isNumeral]; rfl))).bind ?_
    rintro x _ rfl
    exact .pure rfl
  · exact .throw _ _

theorem alike_buildProperties {nodes nodes' : List (Node Rule)}
    (twins : Twins f f' nodes nodes') :
    (buildProperties nodes).Alike f f'
      (fun ps ps' => recastProperties (.moving f) ps = recastProperties (.moving f') ps')
      (buildProperties nodes') := by
  unfold buildProperties
  split
  · obtain _ | _ := twins
    exact .pure rfl
  · obtain _ | ⟨own, further⟩ := twins
    obtain ⟨_, _, _, _, rfl, starts, stops, -, _ | ⟨key, _ | ⟨value, _ | _⟩⟩⟩ := own.exists_eq_mk
    refine (alike_buildKey key).bind fun k k' sameKey => ?_
    refine value.expression.bind fun e e' sameValue => ?_
    refine (alike_buildProperties further).bind fun ps ps' sameRest => .pure ?_
    simp only [recastProperties, sameKey, sameValue, sameRest, span_of_ends starts stops]
  · exact .throw _ _
termination_by sizeOf nodes

theorem alike_buildDeclarators {nodes nodes' : List (Node Rule)}
    (twins : Twins f f' nodes nodes') :
    (buildDeclarators nodes).Alike f f'
      (fun ds ds' =>
        ds.map (Declarator.recast (.moving f)) = ds'.map (Declarator.recast (.moving f')))
      (buildDeclarators nodes') := by
  unfold buildDeclarators
  split
  · obtain _ | _ := twins
    exact .pure rfl
  · obtain _ | ⟨own, further⟩ := twins
    have isName := rule_of_declarator (own.portable.shape rfl)
    obtain ⟨_, _, _, _, rfl, starts, stops, -, _ | ⟨name, _ | _⟩⟩ := own.exists_eq_mk
    refine (alike_buildDeclarators further).bind fun ds ds' sameRest => .pure ?_
    simp only [List.map_cons, Declarator.recast, Option.map_none, sameRest,
      name.name (by rw [isName]; rfl), span_of_ends starts stops]
  · obtain _ | ⟨own, further⟩ := twins
    have isName := rule_of_declarator (own.portable.shape rfl)
    obtain ⟨_, _, _, _, rfl, starts, stops, -, _ | ⟨name, _ | ⟨init, _ | _⟩⟩⟩ := own.exists_eq_mk
    refine init.expression.bind fun e e' sameInit => ?_
    refine (alike_buildDeclarators further).bind fun ds ds' sameRest => .pure ?_
    simp only [List.map_cons, Declarator.recast, Option.map_some, sameRest, sameInit,
      name.name (by rw [isName]; rfl), span_of_ends starts stops]
  · exact .throw _ _
termination_by sizeOf nodes

theorem alike_buildOptional (twins : Twins f f' nodes nodes') :
    (buildOptional nodes).Alike f f'
      (fun e e' => e.map (Expression.recast (.moving f)) = e'.map (Expression.recast (.moving f')))
      (buildOptional nodes') := by
  cases twins with
  | nil =>
    rw [buildOptional]
    exact .pure rfl
  | cons twin _ =>
    rw [buildOptional, buildOptional]
    exact twin.expression.bind fun e e' same => .pure (congrArg some same)

theorem alike_buildLoopStart {span span' : Span} (twins : Twins f f' nodes nodes')
    (sameSpan : (Recast.moving f).span span = (Recast.moving f').span span') :
    (buildLoopStart span nodes).Alike f f'
      (fun l l' => l.map (LoopStart.recast (.moving f)) = l'.map (LoopStart.recast (.moving f')))
      (buildLoopStart span' nodes') := by
  unfold buildLoopStart
  split
  · obtain _ | _ := twins
    exact .pure rfl
  · obtain _ | ⟨own, further⟩ := twins
    have text := own.text_eq rfl
    obtain ⟨_, _, _, _, rfl, -⟩ := own.exists_eq_mk
    refine (alike_buildKind text).bind ?_
    rintro kind _ rfl
    refine (alike_buildDeclarators further).bind fun ds ds' same => .pure ?_
    simp only [Option.map_some, LoopStart.recast, Declaration.recast, same, sameSpan]
  · rename_i node rest other
    obtain _ | ⟨own, -⟩ := twins
    have rule := rule_eq_of_outline own.same
    split
    · rename_i again
      cases again
    · rename_i again
      obtain ⟨rfl, rfl⟩ := List.cons.inj again
      obtain ⟨r, a, b, text, ks⟩ := node
      obtain rfl : Rule.variableKind = r := rule
      exact absurd rfl (other a b text ks)
    · rename_i again
      obtain ⟨rfl, rfl⟩ := List.cons.inj again
      refine own.expression.bind fun e e' same => .pure ?_
      simp only [Option.map_some, LoopStart.recast, same]

theorem alike_buildStatements {nodes nodes' : List (Node Rule)}
    (twins : Twins f f' nodes nodes') :
    (buildStatements nodes).Alike f f'
      (fun ss ss' => recastStatements (.moving f) ss = recastStatements (.moving f') ss')
      (buildStatements nodes') := by
  unfold buildStatements
  split
  · obtain _ | _ := twins
    exact .pure rfl
  · obtain _ | ⟨own, further⟩ := twins
    obtain ⟨_, _, _, _, rfl, -⟩ := own.exists_eq_mk
    exact alike_buildStatements further
  · rename_i node rest other
    obtain _ | ⟨own, further⟩ := twins
    have rule := rule_eq_of_outline own.same
    split
    · rename_i again
      cases again
    · rename_i again
      obtain ⟨rfl, rfl⟩ := List.cons.inj again
      obtain ⟨r, a, b, text, ks⟩ := node
      obtain rfl : Rule.endOfInput = r := rule
      exact absurd rfl (other a b text ks)
    · rename_i again
      obtain ⟨rfl, rfl⟩ := List.cons.inj again
      refine own.statement.bind fun s s' sameFirst => ?_
      refine (alike_buildStatements further).bind fun ss ss' sameRest => .pure ?_
      rw [recastStatements, recastStatements, sameFirst, sameRest]
termination_by sizeOf nodes

end Lists

/-! ## What is built from one node -/

section Nodes

variable {f f' : Nat → Nat} {a b a' b' : Nat}

/-- A function with its name, if it has one, its parameters and its body goes to the same index. -/
theorem alike_function {α : Type} {R : α → α → Prop} (use use' : FunctionId → α)
    (name name' : Option Identifier) {parameters parameters' body body' : Node Rule}
    (starts : f a = f' a') (stops : f b = f' b')
    (sameName : name.map (Recast.moving f).name = name'.map (Recast.moving f').name)
    (isParameters : parameters.rule = .formalParameters)
    (sameParameters : Twin f f' parameters parameters') (sameBody : Twin f f' body body')
    (related : ∀ id, R (use id) (use' id)) :
    Build.Alike f f' R
      (do
        let body ← buildStatements body.children
        return use (← Build.addFunction
          ⟨⟨a, b⟩, name, parameters.children.map buildIdentifier, body⟩))
      (do
        let body ← buildStatements body'.children
        return use' (← Build.addFunction
          ⟨⟨a', b'⟩, name', parameters'.children.map buildIdentifier, body⟩)) := by
  have spelled : ∀ node ∈ parameters.children, node.rule.isSpelled = true := by
    have shape := sameParameters.portable.shape (by rw [isParameters]; rfl)
    rw [isParameters] at shape
    intro node mem
    rw [rule_of_parameter shape node mem]
    rfl
  have names := names_of_twins sameParameters.children spelled
  refine (alike_buildStatements sameBody.children).bind fun ss ss' same => ?_
  refine Build.Alike.bind (R := Eq) (.addFunction ?_) ?_
  · simp only [FunctionDefinition.recast, sameName, names, same, span_of_ends starts stops]
  · rintro id _ rfl
    exact .pure (related id)

variable {node node' : Node Rule}

/-- An expression, if the nodes below are built in the same way. -/
theorem alike_buildExpression
    (shape : node.rule.hasParts = true →
      (grammar.body node.rule).Leaves Rule.Stands node.children)
    (each : ∀ child ∈ node.children, Portable f f' child)
    (same : outline f node = outline f' node') :
    (buildExpression node).Alike f f'
      (fun e e' => e.recast (.moving f) = e'.recast (.moving f')) (buildExpression node') := by
  have spelled := text_eq_of_outline same
  unfold buildExpression
  split
  · -- An assignment: the two targets are of one form.
    obtain ⟨_, _, _, _, rfl, starts, stops, -, _ | ⟨target, _ | ⟨value, _ | _⟩⟩⟩ :=
      exists_twins_of_outline each same
    refine target.expression.bind fun e e' sameTarget => ?_
    split
    · obtain ⟨_, rfl, sameName⟩ := Expression.exists_of_recast_identifier sameTarget
      refine value.expression.bind fun v v' sameValue => .pure ?_
      simp only [Expression.recast, sameName, sameValue, span_of_ends starts stops]
    · obtain ⟨_, _, _, rfl, sameSpan, sameBase, sameProperty⟩ :=
        Expression.exists_of_recast_member sameTarget
      refine value.expression.bind fun v v' sameValue => .pure ?_
      simp only [Expression.recast, sameSpan, sameBase, sameProperty, sameValue,
        span_of_ends starts stops]
    · exact .throw _ _
  · -- A chain of operands.
    obtain ⟨_, _, _, _, rfl, -, -, -, _ | ⟨operand, further⟩⟩ := exists_twins_of_outline each same
    obtain ⟨_, _, operands, ⟨links, linked, rfl⟩, children⟩ := shape rfl
    obtain ⟨_, rfl, -⟩ := operands.operand rfl
    obtain ⟨rfl, rfl⟩ := List.cons.inj children
    refine operand.expression.bind fun left left' sameLeft => ?_
    exact alike_buildChain linked further sameLeft
  · -- An operator before an operand.
    rename_i operator _
    have isSpelled : operator.rule.isSpelled = true := by
      obtain ⟨_, _, operators, -, children⟩ := shape rfl
      obtain ⟨_, rfl, isOperator⟩ := operators.visible rfl
      obtain ⟨rfl, -⟩ := List.cons.inj children
      rw [isOperator]
      rfl
    obtain ⟨_, _, _, _, rfl, starts, stops, -, _ | ⟨operator, _ | ⟨operand, _ | _⟩⟩⟩ :=
      exists_twins_of_outline each same
    refine (alike_buildUnaryOperator (operator.text_eq isSpelled)).bind ?_
    rintro symbol _ rfl
    refine operand.expression.bind fun e e' sameOperand => .pure ?_
    simp only [Expression.recast, sameOperand, span_of_ends starts stops]
  · -- Properties and calls.
    obtain ⟨_, _, _, _, rfl, -, -, -, _ | ⟨primary, suffixes⟩⟩ := exists_twins_of_outline each same
    refine primary.expression.bind fun base base' sameBase => ?_
    exact alike_buildSuffixes suffixes sameBase
  · obtain ⟨_, _, _, _, rfl, starts, stops, texts, -⟩ := exists_of_outline same
    refine .pure ?_
    simp only [Expression.recast, Recast.name, texts rfl, span_of_ends starts stops]
  · have text := spelled rfl
    obtain ⟨_, _, _, _, rfl, starts, stops, -⟩ := exists_of_outline same
    refine (alike_buildNumeral text).bind ?_
    rintro x _ rfl
    refine .pure ?_
    simp only [Expression.recast, span_of_ends starts stops]
    rfl
  · have string := buildString_of_outline (shape rfl) same
    obtain ⟨_, _, _, _, rfl, starts, stops, -⟩ := exists_of_outline same
    refine .pure ?_
    simp only [Expression.recast, string, span_of_ends starts stops]
    rfl
  · obtain ⟨_, _, _, _, rfl, starts, stops, texts, -⟩ := exists_of_outline same
    refine .pure ?_
    simp only [Expression.recast, texts rfl, span_of_ends starts stops]
    rfl
  · obtain ⟨_, _, _, _, rfl, starts, stops, -⟩ := exists_of_outline same
    refine .pure ?_
    simp only [Expression.recast, span_of_ends starts stops]
    rfl
  · obtain ⟨_, _, _, _, rfl, starts, stops, -, properties⟩ := exists_twins_of_outline each same
    refine (alike_buildProperties properties).bind fun ps ps' same => .pure ?_
    simp only [Expression.recast, same, span_of_ends starts stops]
  · obtain ⟨_, _, _, _, rfl, starts, stops, -, elements⟩ := exists_twins_of_outline each same
    refine (alike_buildExpressions elements).bind fun es es' same => .pure ?_
    simp only [Expression.recast, same, span_of_ends starts stops]
  · -- A function without a name.
    have isParameters := rule_of_unnamedFunction (shape rfl)
    obtain ⟨_, _, _, _, rfl, starts, stops, -, _ | ⟨_, _ | ⟨parameters, _ | ⟨body, _ | _⟩⟩⟩⟩ :=
      exists_twins_of_outline each same
    obtain ⟨_, _, _, _, rfl, -⟩ := body.exists_eq_mk
    refine alike_function (Expression.function ⟨_, _⟩) (Expression.function ⟨_, _⟩) none none starts
      stops rfl isParameters parameters body fun id => ?_
    simp only [Expression.recast, span_of_ends starts stops]
  · -- A function with a name.
    obtain ⟨isName, isParameters⟩ := rules_of_namedFunction (shape rfl) <| by
      rintro nodes (stands | rfl)
      · exact (stands.visible rfl).forall_mem
      · exact List.forall_mem_nil _
    obtain ⟨_, _, _, _, rfl, starts, stops, -,
      _ | ⟨_, _ | ⟨name, _ | @⟨_, parameters', _, _, parameters, _ | ⟨body, _ | _⟩⟩⟩⟩⟩ :=
      exists_twins_of_outline each same
    obtain ⟨_, _, _, _, rfl, -⟩ := body.exists_eq_mk
    -- the builder has to see that the third child is not the body
    obtain ⟨_, _, _, _, _⟩ := parameters'
    refine alike_function (Expression.function ⟨_, _⟩) (Expression.function ⟨_, _⟩)
      (some (buildIdentifier _)) (some (buildIdentifier _)) starts stops
      (congrArg some (name.name (by rw [isName]; rfl))) isParameters parameters body fun id => ?_
    simp only [Expression.recast, span_of_ends starts stops]
  · exact .throw _ _

/-- A statement, if the nodes below are built in the same way. -/
theorem alike_buildStatement
    (shape : node.rule.hasParts = true →
      (grammar.body node.rule).Leaves Rule.Stands node.children)
    (each : ∀ child ∈ node.children, Portable f f' child)
    (same : outline f node = outline f' node') :
    (buildStatement node).Alike f f'
      (fun s s' => s.recast (.moving f) = s'.recast (.moving f')) (buildStatement node') := by
  unfold buildStatement
  split
  · -- The declaration of a function.
    obtain ⟨isName, isParameters⟩ := rules_of_namedFunction (shape rfl)
      fun nodes stands => (stands.visible rfl).forall_mem
    obtain ⟨_, _, _, _, rfl, starts, stops, -,
      _ | ⟨_, _ | ⟨name, _ | ⟨parameters, _ | ⟨body, _ | _⟩⟩⟩⟩⟩ := exists_twins_of_outline each same
    obtain ⟨_, _, _, _, rfl, -⟩ := body.exists_eq_mk
    have sameName := name.name (by rw [isName]; rfl)
    refine alike_function (Statement.functionDeclaration ⟨_, _⟩ (buildIdentifier _))
      (Statement.functionDeclaration ⟨_, _⟩ (buildIdentifier _)) (some (buildIdentifier _))
      (some (buildIdentifier _)) starts stops (congrArg some sameName) isParameters parameters body
      fun id => ?_
    simp only [Statement.recast, sameName, span_of_ends starts stops]
  · -- The declaration of variables.
    rename_i kind _
    have isSpelled : kind.rule.isSpelled = true := by
      obtain ⟨_, _, kinds, -, children⟩ := shape rfl
      obtain ⟨_, rfl, isKind⟩ := kinds.visible rfl
      obtain ⟨rfl, -⟩ := List.cons.inj children
      rw [isKind]
      rfl
    obtain ⟨_, _, _, _, rfl, starts, stops, -, _ | ⟨kind, declarators⟩⟩ :=
      exists_twins_of_outline each same
    refine (alike_buildKind (kind.text_eq isSpelled)).bind ?_
    rintro word _ rfl
    refine (alike_buildDeclarators declarators).bind fun ds ds' same => .pure ?_
    simp only [Statement.recast, Declaration.recast, same, span_of_ends starts stops]
  · -- A conditional without an alternative.
    obtain ⟨_, _, _, _, rfl, starts, stops, -, _ | ⟨_, _ | ⟨test, _ | ⟨consequent, _ | _⟩⟩⟩⟩ :=
      exists_twins_of_outline each same
    refine test.expression.bind fun e e' sameTest => ?_
    refine consequent.statement.bind fun s s' sameConsequent => .pure ?_
    simp only [Statement.recast, sameTest, sameConsequent, span_of_ends starts stops]
  · -- A conditional with an alternative.
    obtain ⟨_, _, _, _, rfl, starts, stops, -,
      _ | ⟨_, _ | ⟨test, _ | ⟨consequent, _ | ⟨_, _ | ⟨alternate, _ | _⟩⟩⟩⟩⟩⟩ :=
      exists_twins_of_outline each same
    refine test.expression.bind fun e e' sameTest => ?_
    refine consequent.statement.bind fun s s' sameConsequent => ?_
    refine alternate.statement.bind fun t t' sameAlternate => .pure ?_
    simp only [Statement.recast, sameTest, sameConsequent, sameAlternate, span_of_ends starts stops]
  · -- A loop with a test.
    obtain ⟨_, _, _, _, rfl, starts, stops, -, _ | ⟨_, _ | ⟨test, _ | ⟨body, _ | _⟩⟩⟩⟩ :=
      exists_twins_of_outline each same
    refine test.expression.bind fun e e' sameTest => ?_
    refine body.statement.bind fun s s' sameBody => .pure ?_
    simp only [Statement.recast, sameTest, sameBody, span_of_ends starts stops]
  · -- A counting loop.
    obtain ⟨_, _, _, _, rfl, starts, stops, -,
      _ | ⟨_, _ | ⟨start, _ | ⟨test, _ | ⟨update, _ | ⟨body, _ | _⟩⟩⟩⟩⟩⟩ :=
      exists_twins_of_outline each same
    obtain ⟨_, _, _, _, rfl, starts', stops', -, start⟩ := start.exists_eq_mk
    obtain ⟨_, _, _, _, rfl, -, -, -, test⟩ := test.exists_eq_mk
    obtain ⟨_, _, _, _, rfl, -, -, -, update⟩ := update.exists_eq_mk
    refine (alike_buildLoopStart start (span_of_ends starts' stops')).bind fun l l' sameStart => ?_
    refine (alike_buildOptional test).bind fun t t' sameTest => ?_
    refine (alike_buildOptional update).bind fun u u' sameUpdate => ?_
    refine body.statement.bind fun s s' sameBody => .pure ?_
    simp only [Statement.recast, sameStart, sameTest, sameUpdate, sameBody,
      span_of_ends starts stops]
  · obtain ⟨_, _, _, _, rfl, starts, stops, -, _ | ⟨_, argument⟩⟩ :=
      exists_twins_of_outline each same
    refine (alike_buildOptional argument).bind fun e e' same => .pure ?_
    simp only [Statement.recast, same, span_of_ends starts stops]
  · obtain ⟨_, _, _, _, rfl, starts, stops, -, statements⟩ := exists_twins_of_outline each same
    refine (alike_buildStatements statements).bind fun ss ss' same => .pure ?_
    simp only [Statement.recast, same, span_of_ends starts stops]
  · obtain ⟨_, _, _, _, rfl, starts, stops, -⟩ := exists_of_outline same
    refine .pure ?_
    simp only [Statement.recast, span_of_ends starts stops]
  · obtain ⟨_, _, _, _, rfl, starts, stops, -, _ | ⟨e, _⟩⟩ := exists_twins_of_outline each same
    refine e.expression.bind fun e e' same => .pure ?_
    simp only [Statement.recast, same, span_of_ends starts stops]
  · exact .throw _ _

/-- **Every node of a match is built in the same way as others of its outline.**  The induction is
on its derivation. -/
theorem portable_of_grown {source : List Char} (grown : node.Grown grammar source) :
    Portable f f' node := by
  induction grown with
  | @mk mode rule p q children start kept body each ih =>
    have shape : rule.hasParts = true → (grammar.body rule).Leaves Rule.Stands children :=
      shape_of_grown (.mk start kept body each)
    refine .intro shape (fun node' same => ?_) ih
    exact ⟨alike_buildExpression shape ih same, alike_buildStatement shape ih same⟩

end Nodes

/-- **Trees of the same outline are built alike.**  If the first one is the tree of a match and has
a program, the second one has the same program up to the offsets. -/
theorem ofNode_of_outline {f f' : Nat → Nat} {source : List Char} {node node' : Node Rule}
    {program : Program} (grown : ∀ child ∈ node.children, child.Grown grammar source)
    (same : outlines f node.children = outlines f' node'.children)
    (built : Program.ofNode node = .ok program) :
    ∃ program', Program.ofNode node' = .ok program' ∧
      program.recast (.moving f) = program'.recast (.moving f') := by
  have twins : Twins f f' node.children node'.children :=
    twins_of_outlines (fun child mem => portable_of_grown (grown child mem)) same
  have run (node : Node Rule) : Program.ofNode node =
      (buildStatements node.children #[] >>= fun built => .ok ⟨built.1, built.2⟩) := rfl
  rw [run] at built
  cases first : buildStatements node.children #[] with
  | error error =>
    rw [first] at built
    exact nomatch built
  | ok result =>
    rw [first] at built
    cases built
    have empty : Build.SameFunctions f f' #[] #[] := by
      rw [Build.SameFunctions, Array.map_empty, Array.map_empty]
    obtain ⟨body', functions', second, sameBody, sameFunctions⟩ :=
      alike_buildStatements twins empty first
    refine ⟨⟨body', functions'⟩, by rw [run, second]; rfl, ?_⟩
    simp only [Program.recast, sameBody, show Array.map _ _ = _ from sameFunctions]

end ScriptTrace
