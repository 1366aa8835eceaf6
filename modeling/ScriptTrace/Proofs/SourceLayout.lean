import ScriptTrace.Proofs.Parts
import ScriptTrace.Proofs.ScriptLayout

/-!
# Where the parts of a program stand in its source

The stretch of a part comes from the nodes of the matched tree.  Most parts take the stretch of
their node.  The operations of a chain and the properties and calls after an expression are put
together from what has been built so far: they begin where their first operand begins, which is
further inside than the node if there are parentheses around the operand, and they end where their
last part ends.

So every builder is followed with the offsets between which its nodes lie.  What it adds is a layout
between these offsets, and for an expression a layout between the two ends of the expression itself
(`Expression.Fits`), which is what the next operation of a chain begins with.

A function is closed after its body, and its stretch ends after those of the functions of its body
because of the closing brace.  That is the one place where the grammar is asked what it matched
(`exists_body_of_function`).

* `Planted`: nodes of a match in the order of the text.
* `Laid`: the layout that a builder adds.
* `laid_buildStatements`: what is added for statements.
* `ripe_of_grown`: every node of a match is built so.
-/

namespace ScriptTrace

open Peg (Node Row)
open ScriptTrace.Language (grammar)

variable {source : List Char} {a b c : Nat}

/-! ## Nodes and their stretches -/

namespace Peg.Node.Grown

variable {node : Node Rule}

theorem row (h : node.Grown grammar source) :
    Row Node.start Node.stop node.start node.children node.stop := by
  cases h with
  | mk _ _ body _ => exact body.row

theorem ordered (h : node.Grown grammar source) : node.start ≤ node.stop :=
  h.row.le

/-- A node takes a stretch of the source. -/
theorem exists_split (h : node.Grown grammar source) :
    ∃ before after, source = before ++ (node.text ++ after) ∧
      node.start = Text.byteLength before ∧
      node.stop = node.start + Text.byteLength node.text := by
  cases h with
  | @mk mode rule p q children start _ body _ =>
    obtain ⟨before, reached⟩ := start
    obtain ⟨taken, reaches⟩ := body.reaches
    refine ⟨before, q.rest, ?_⟩
    show source = before ++ (p.upTo q.offset ++ q.rest) ∧ p.offset = Text.byteLength before ∧
      q.offset = p.offset + Text.byteLength (p.upTo q.offset)
    rw [reaches.upTo_eq]
    refine ⟨?_, ?_, reaches.offset_eq⟩
    · rw [← reaches.rest_eq]
      exact reached.rest_eq
    · rw [reached.offset_eq, Nat.zero_add]

theorem startsBetween (h : node.Grown grammar source) : Text.IsBoundary source node.start := by
  obtain ⟨before, after, split, starts, -⟩ := h.exists_split
  exact ⟨before, node.text ++ after, split, starts⟩

theorem stopsBetween (h : node.Grown grammar source) : Text.IsBoundary source node.stop := by
  obtain ⟨before, after, split, starts, stops⟩ := h.exists_split
  refine ⟨before ++ node.text, after, by rw [split, List.append_assoc], ?_⟩
  rw [stops, starts, Text.byteLength_append]

theorem text_eq_slice (h : node.Grown grammar source) :
    node.text = Text.slice source (nodeSpan node) := by
  obtain ⟨before, after, split, starts, stops⟩ := h.exists_split
  show node.text = Text.takeBytes (node.stop - node.start) (Text.dropBytes node.start source)
  rw [stops, Nat.add_sub_cancel_left, starts, split, Text.dropBytes_byteLength_append,
    Text.takeBytes_byteLength_append]

end Peg.Node.Grown

/-! ## The end of a function -/

/-- **The nodes in the body of a function end before the function does**, since a brace closes the
body. -/
theorem exists_body_of_function {node last : Node Rule} (grown : node.Grown grammar source)
    (isFunction : node.rule ∈ [Rule.functionDeclaration, .functionExpression])
    {front : List (Node Rule)} (children_eq : node.children = front ++ [last]) :
    ∃ stop < node.stop, Row Node.start Node.stop last.start last.children stop := by
  cases grown with
  | @mk mode rule p q children _ kept body _ =>
    have normal : grammar.kind rule = .normal := by
      simp only [Node.rule, List.mem_cons, List.not_mem_nil, or_false] at isFunction
      obtain rfl | rfl := isFunction <;> rfl
    rw [normal] at kept body
    have loud : mode ≠ .atomic := kept.2
    -- The last part of either rule is the body.
    obtain ⟨before, p₁, ys, closing, rfl⟩ : ∃ before p₁ ys,
        grammar.Matches mode (.rule .functionBody) p₁ ys q ∧ children = before ++ ys := by
      simp only [Node.rule, List.mem_cons, List.not_mem_nil, or_false] at isFunction
      obtain rfl | rfl := isFunction
      · exact body.inOrder_last [.rule .identifier, .rule .formalParameters]
      · exact body.inOrder_last [.optional (.rule .identifier), .rule .formalParameters]
    cases closing with
    | @rule _ _ _ _ statements inner =>
      have kept : (grammar.kind .functionBody).isVisible = true ∧
          (grammar.kind .functionBody).outer mode ≠ .atomic := ⟨rfl, loud⟩
      rw [Peg.Grammar.nodesOf, if_pos kept] at children_eq
      obtain rfl := List.singleton_inj.mp (List.append_inj' children_eq rfl).2
      refine inner.seq_row_lt fun p₂ ys rest => rest.seq_row_lt fun p₃ ys close => ?_
      cases close with
      | text eaten =>
        refine ⟨p₃.offset, ?_, Nat.le_refl _⟩
        have wide : 0 < Text.byteLength "\x7d".toList := by decide
        rw [eaten.offset_eq]
        omega

/-! ## What builders add -/

/-- The layout that a builder adds between two offsets, with the functions before and after. -/
def Laid (source : List Char) (fs : Array FunctionDefinition) (a : Nat) (parts : List Part)
    (fs' : Array FunctionDefinition) (b : Nat) : Prop :=
  ∃ new, fs'.toList = fs.toList ++ new ∧ Part.Layout source fs.size a parts new b

namespace Laid

variable {fs fs₁ fs' : Array FunctionDefinition} {parts more : List Part} {node : Node Rule}

theorem nil (le : a ≤ b) : Laid source fs a [] fs b :=
  ⟨[], (List.append_nil _).symm, .nil le⟩

theorem widen {a' b' : Nat} (h : Laid source fs a parts fs' b) (before : a' ≤ a) (after : b ≤ b') :
    Laid source fs a' parts fs' b' := by
  obtain ⟨new, added, layout⟩ := h
  exact ⟨new, added, layout.widen before after⟩

theorem append (first : Laid source fs a parts fs₁ b) (second : Laid source fs₁ b more fs' c) :
    Laid source fs a (parts ++ more) fs' c := by
  obtain ⟨new, added, layout⟩ := first
  obtain ⟨new', added', layout'⟩ := second
  have size : fs₁.size = fs.size + new.length := by
    rw [← Array.length_toList, added, List.length_append, Array.length_toList]
  refine ⟨new ++ new', by rw [added', added, List.append_assoc], layout.append ?_⟩
  rwa [← size]

theorem wrap (span : Span) (h : Laid source fs span.start parts fs' span.stop)
    (starts : Text.IsBoundary source span.start) (stops : Text.IsBoundary source span.stop) :
    Laid source fs span.start [.mk span .other parts] fs' span.stop := by
  obtain ⟨new, added, layout⟩ := h
  exact ⟨new, added, layout.wrap span starts stops⟩

/-- A part with the stretch of a node. -/
theorem wrapNode (grown : node.Grown grammar source)
    (h : Laid source fs node.start parts fs' node.stop) :
    Laid source fs node.start [.mk (nodeSpan node) .other parts] fs' node.stop :=
  wrap (nodeSpan node) h grown.startsBetween grown.stopsBetween

/-- The name that a node spells. -/
theorem name (grown : node.Grown grammar source) :
    Laid source fs node.start [(buildIdentifier node).part] fs node.stop := by
  refine ⟨[], (List.append_nil _).symm,
    .name (buildIdentifier node) grown.ordered
    grown.startsBetween grown.stopsBetween ?_⟩
  show (String.ofList node.text).toList = _
  rw [String.toList_ofList]
  exact grown.text_eq_slice

theorem names {nodes : List (Node Rule)} (row : Row Node.start Node.stop a nodes b)
    (grown : ∀ node ∈ nodes, node.Grown grammar source) :
    Laid source fs a ((nodes.map buildIdentifier).map Identifier.part) fs b := by
  induction nodes generalizing a with
  | nil => exact .nil row
  | cons node rest ih =>
    obtain ⟨before, -, further⟩ := row
    obtain ⟨own, others⟩ := List.forall_mem_cons.mp grown
    exact ((name own).widen before (Nat.le_refl _)).append (ih further others)

/-- A function is closed. -/
theorem close {f : FunctionDefinition} {declared : Option Identifier}
    (h : Laid source fs f.span.start f.parts fs' b) (ends : b < f.span.stop)
    (starts : Text.IsBoundary source f.span.start) (stops : Text.IsBoundary source f.span.stop)
    (named : ∀ name, declared = some name → f.name = some name) :
    Laid source fs f.span.start [.mk f.span (.function fs'.size declared) []] (fs'.push f)
      f.span.stop := by
  obtain ⟨new, added, layout⟩ := h
  have size : fs'.size = fs.size + new.length := by
    rw [← Array.length_toList, added, List.length_append, Array.length_toList]
  refine ⟨new ++ [f], by rw [Array.toList_push, added, List.append_assoc], ?_⟩
  rw [size]
  exact layout.close ends starts stops named

end Laid

/-- What is added for an expression lies between the ends of the expression, and these between two
offsets. -/
structure Expression.Fits (source : List Char) (fs : Array FunctionDefinition) (a : Nat)
    (e : Expression) (fs' : Array FunctionDefinition) (b : Nat) : Prop where
  own : Laid source fs e.span.start [e.part] fs' e.span.stop
  startsBetween : Text.IsBoundary source e.span.start
  stopsBetween : Text.IsBoundary source e.span.stop
  starts : a ≤ e.span.start
  stops : e.span.stop ≤ b

namespace Expression.Fits

variable {fs fs' : Array FunctionDefinition} {e : Expression} {node : Node Rule} {parts : List Part}

theorem laid (h : e.Fits source fs a fs' b) : Laid source fs a [e.part] fs' b :=
  h.own.widen h.starts h.stops

theorem widen {a' b' : Nat} (h : e.Fits source fs a fs' b) (before : a' ≤ a) (after : b ≤ b') :
    e.Fits source fs a' fs' b' :=
  { h with
    starts := Nat.le_trans before h.starts
    stops := Nat.le_trans h.stops after }

/-- An expression with the stretch of a node. -/
theorem ofNode (grown : node.Grown grammar source) (span : e.span = nodeSpan node)
    (own : Laid source fs node.start [e.part] fs' node.stop) :
    e.Fits source fs node.start fs' node.stop where
  own := by rwa [span]
  startsBetween := by rw [span]; exact grown.startsBetween
  stopsBetween := by rw [span]; exact grown.stopsBetween
  starts := Nat.le_of_eq (congrArg Span.start span).symm
  stops := Nat.le_of_eq (congrArg Span.stop span)

/-- An expression that begins with another one and ends at a given offset. -/
theorem extend {left : Expression} {fs₁ : Array FunctionDefinition} {stop : Nat}
    (h : left.Fits source fs a fs₁ b) (more : Laid source fs₁ b parts fs' stop)
    (stopsBetween : Text.IsBoundary source stop) (span : e.span = ⟨left.span.start, stop⟩)
    (part : e.part = .mk ⟨left.span.start, stop⟩ .other (left.part :: parts)) :
    e.Fits source fs a fs' stop where
  own := by
    rw [part, span]
    have inside := (h.own.widen (Nat.le_refl _) h.stops).append more
    exact Laid.wrap ⟨left.span.start, stop⟩ inside h.startsBetween stopsBetween
  startsBetween := by rw [span]; exact h.startsBetween
  stopsBetween := by rw [span]; exact stopsBetween
  starts := by rw [span]; exact h.starts
  stops := Nat.le_of_eq (congrArg Span.stop span)

end Expression.Fits

/-! ## Builders that run through -/

namespace Build

variable {α β : Type}

/-- A result of two builders, one after the other, comes from a result of each. -/
theorem run_bind_eq_ok {x : Build α} {next : α → Build β} {fs fs' : Array FunctionDefinition}
    {b : β} (built : (x >>= next) fs = .ok (b, fs')) :
    ∃ a fs₁, x fs = .ok (a, fs₁) ∧ next a fs₁ = .ok (b, fs') := by
  change (x fs >>= fun p => next p.1 p.2) = .ok (b, fs') at built
  cases first : x fs with
  | error error =>
    rw [first] at built
    cases built
  | ok p =>
    rw [first] at built
    exact ⟨p.1, p.2, rfl, built⟩

/-- A builder that leaves the functions as they are. -/
def Reads (x : Build α) : Prop :=
  ∀ fs result fs', x fs = .ok (result, fs') → fs' = fs

namespace Reads

theorem pure (result : α) : (Pure.pure result : Build α).Reads := by
  rintro fs _ fs' ⟨⟩
  rfl

theorem throw (error : BuildError) : (MonadExcept.throw error : Build α).Reads :=
  fun _ _ _ built => nomatch built

theorem bind {x : Build α} {next : α → Build β} (first : x.Reads) (each : ∀ a, (next a).Reads) :
    (x >>= next).Reads := by
  intro fs result fs' built
  obtain ⟨a, fs₁, here, built⟩ := run_bind_eq_ok built
  rw [each a fs₁ result fs' built, first fs a fs₁ here]

end Reads

end Build

theorem reads_buildNumeral (node : Node Rule) : (buildNumeral node).Reads := by
  rw [buildNumeral]
  cases Number.ofNumeral? node.text with
  | none => exact .throw _
  | some x => exact .pure x

theorem reads_buildKind (node : Node Rule) : (buildKind node).Reads := by
  rw [buildKind]
  cases DeclarationKind.ofWord? (String.ofList node.text) with
  | none => exact .throw _
  | some kind => exact .pure kind

theorem reads_buildUnaryOperator (node : Node Rule) : (buildUnaryOperator node).Reads := by
  rw [buildUnaryOperator]
  cases UnaryOperator.ofSymbol? (String.ofList node.text) with
  | none => exact .throw _
  | some operator => exact .pure operator

theorem reads_buildBinaryOperator (node : Node Rule) : (buildBinaryOperator node).Reads := by
  rw [buildBinaryOperator]
  cases BinaryOperator.ofSymbol? (String.ofList node.text) with
  | none => exact .throw _
  | some operator => exact .pure operator

theorem reads_buildKey (node : Node Rule) : (buildKey node).Reads := by
  unfold buildKey
  split
  · exact .pure _
  · exact .pure _
  · exact .bind (reads_buildNumeral node) fun _ => .pure _
  · exact .throw _

/-! ## Nodes that builders know -/

/-- What building an expression or a statement from a node adds. -/
structure Adds (source : List Char) (node : Node Rule) : Prop where
  expression : ∀ {fs e fs'}, buildExpression node fs = .ok (e, fs') →
    e.Fits source fs node.start fs' node.stop
  statement : ∀ {fs s fs'}, buildStatement node fs = .ok (s, fs') →
    Laid source fs node.start [s.part] fs' node.stop ∧ s.span = nodeSpan node

/-- A node of a match, with what building from it and from the nodes below it adds. -/
inductive Ripe (source : List Char) : Node Rule → Prop
  | intro {node : Node Rule} (grown : node.Grown grammar source) (adds : Adds source node)
      (each : ∀ child ∈ node.children, Ripe source child) : Ripe source node

/-- Such nodes, one after the other between two offsets. -/
structure Planted (source : List Char) (a : Nat) (nodes : List (Node Rule)) (b : Nat) : Prop where
  row : Row Node.start Node.stop a nodes b
  ripe : ∀ node ∈ nodes, Ripe source node

namespace Ripe

variable {node : Node Rule}

theorem grown (h : Ripe source node) : node.Grown grammar source := by
  cases h with
  | intro grown => exact grown

theorem planted (h : Ripe source node) : Planted source node.start node.children node.stop := by
  cases h with
  | intro grown _ each => exact ⟨grown.row, each⟩

theorem fits {fs fs' : Array FunctionDefinition} {e : Expression} (h : Ripe source node)
    (built : buildExpression node fs = .ok (e, fs')) :
    e.Fits source fs node.start fs' node.stop := by
  cases h with
  | intro _ adds => exact adds.expression built

theorem laid {fs fs' : Array FunctionDefinition} {s : Statement} (h : Ripe source node)
    (built : buildStatement node fs = .ok (s, fs')) :
    Laid source fs node.start [s.part] fs' node.stop ∧ s.span = nodeSpan node := by
  cases h with
  | intro _ adds => exact adds.statement built

end Ripe

namespace Planted

variable {node : Node Rule} {nodes others : List (Node Rule)}

theorem cons (h : Planted source a (node :: nodes) b) :
    a ≤ node.start ∧ Ripe source node ∧ Planted source node.stop nodes b := by
  obtain ⟨before, -, further⟩ := h.row
  obtain ⟨ripe, others⟩ := List.forall_mem_cons.mp h.ripe
  exact ⟨before, ripe, further, others⟩

/-- A node may be passed over. -/
theorem skip (h : Planted source a (node :: nodes) b) : Planted source a nodes b := by
  obtain ⟨before, ripe, further⟩ := h.cons
  exact ⟨further.row.widen (Nat.le_trans before ripe.grown.ordered) (Nat.le_refl _), further.ripe⟩

theorem split (h : Planted source a (nodes ++ others) c) :
    ∃ b, Planted source a nodes b ∧ Planted source b others c := by
  obtain ⟨b, first, second⟩ := h.row.split
  obtain ⟨ripe, ripe'⟩ := List.forall_mem_append.mp h.ripe
  exact ⟨b, ⟨first, ripe⟩, ⟨second, ripe'⟩⟩

theorem names {fs : Array FunctionDefinition} (h : Planted source a nodes b) :
    Laid source fs a ((nodes.map buildIdentifier).map Identifier.part) fs b :=
  .names h.row fun node mem => (h.ripe node mem).grown

end Planted

/-! ## What is added for lists of nodes -/

theorem laid_buildExpressions {fs fs' : Array FunctionDefinition} {nodes : List (Node Rule)}
    {es : List Expression} (planted : Planted source a nodes b)
    (built : buildExpressions nodes fs = .ok (es, fs')) :
    Laid source fs a (expressionParts es) fs' b := by
  induction nodes generalizing a fs es with
  | nil =>
    rw [buildExpressions] at built
    cases built
    exact .nil planted.row
  | cons node rest ih =>
    rw [buildExpressions] at built
    obtain ⟨e, fs₁, first, built⟩ := Build.run_bind_eq_ok built
    obtain ⟨es, fs₂, second, built⟩ := Build.run_bind_eq_ok built
    cases built
    obtain ⟨before, ripe, further⟩ := planted.cons
    have own := (ripe.fits first).laid.widen before (Nat.le_refl _)
    exact own.append (ih further second)

/-- What is added for the further operands of a chain, after what has been built so far. -/
theorem fits_buildChain {fs₀ fs fs' : Array FunctionDefinition} {left e : Expression}
    {a b m : Nat} (nodes : List (Node Rule)) (fits : left.Fits source fs₀ a fs m)
    (planted : Planted source m nodes b) {chain : Node Rule}
    (built : buildChain chain left nodes fs = .ok (e, fs')) :
    e.Fits source fs₀ a fs' b := by
  match nodes with
  | [] =>
    rw [buildChain] at built
    cases built
    exact fits.widen (Nat.le_refl _) planted.row
  | [symbol] =>
    rw [buildChain] at built
    cases built
  | symbol :: operand :: rest =>
    rw [buildChain] at built
    obtain ⟨operator, fs₁, first, continued⟩ := Build.run_bind_eq_ok built
    obtain ⟨right, fs₂, second, finished⟩ := Build.run_bind_eq_ok continued
    obtain rfl := reads_buildBinaryOperator symbol _ _ _ first
    obtain ⟨before, ripe, further⟩ := planted.skip.cons
    have operandFits := ripe.fits second
    have more := operandFits.own.widen (Nat.le_trans before operandFits.starts) (Nat.le_refl _)
    have whole : (Expression.binary ⟨left.span.start, right.span.stop⟩ operator left right).Fits
        source fs₀ a fs₂ right.span.stop :=
      fits.extend more operandFits.stopsBetween rfl rfl
    exact fits_buildChain rest (whole.widen (Nat.le_refl _) operandFits.stops) further finished

/-- What is added for properties and calls, after what has been built so far. -/
theorem fits_buildSuffixes {fs₀ fs fs' : Array FunctionDefinition} {base e : Expression}
    {a b m : Nat} (nodes : List (Node Rule)) (fits : base.Fits source fs₀ a fs m)
    (planted : Planted source m nodes b) (built : buildSuffixes base nodes fs = .ok (e, fs')) :
    e.Fits source fs₀ a fs' b := by
  unfold buildSuffixes at built
  split at built
  · cases built
    exact fits.widen (Nat.le_refl _) planted.row
  · rename_i start stop text name others rest
    obtain ⟨before, ripe, further⟩ := planted.cons
    obtain ⟨before', ripeName, others⟩ := ripe.planted.cons
    have more : Laid source fs m [(buildIdentifier name).part] fs stop :=
      (Laid.name ripeName.grown).widen (Nat.le_trans before before') others.row.le
    have whole : (Expression.member ⟨base.span.start, stop⟩ base (buildIdentifier name)).Fits
        source fs₀ a fs stop :=
      fits.extend more ripe.grown.stopsBetween rfl rfl
    exact fits_buildSuffixes rest whole further built
  · rename_i start stop text arguments rest
    obtain ⟨es, fs₁, first, built⟩ := Build.run_bind_eq_ok built
    obtain ⟨before, ripe, further⟩ := planted.cons
    have more := (laid_buildExpressions ripe.planted first).widen before (Nat.le_refl _)
    have whole : (Expression.call ⟨base.span.start, stop⟩ base es).Fits source fs₀ a fs₁ stop :=
      fits.extend more ripe.grown.stopsBetween rfl rfl
    exact fits_buildSuffixes rest whole further built
  · cases built
termination_by sizeOf nodes

theorem laid_buildProperties {fs fs' : Array FunctionDefinition} {a b : Nat}
    {properties : List (Property Expression)} (nodes : List (Node Rule))
    (planted : Planted source a nodes b)
    (built : buildProperties nodes fs = .ok (properties, fs')) :
    Laid source fs a (propertyParts properties) fs' b := by
  unfold buildProperties at built
  split at built
  · cases built
    exact .nil planted.row
  · rename_i r start stop text key value rest
    obtain ⟨k, fs₁, first, built⟩ := Build.run_bind_eq_ok built
    obtain ⟨e, fs₂, second, built⟩ := Build.run_bind_eq_ok built
    obtain ⟨ps, fs₃, third, built⟩ := Build.run_bind_eq_ok built
    cases built
    cases reads_buildKey key _ _ _ first
    obtain ⟨before, ripe, further⟩ := planted.cons
    obtain ⟨before', ripeValue, rest'⟩ := ripe.planted.skip.cons
    have inside := (ripeValue.fits second).laid.widen before' rest'.row
    have own := (Laid.wrapNode ripe.grown inside).widen before (Nat.le_refl _)
    exact own.append (laid_buildProperties rest further third)
  · cases built
termination_by sizeOf nodes

theorem laid_buildDeclarators {fs fs' : Array FunctionDefinition} {a b : Nat}
    {declarators : List Declarator} (nodes : List (Node Rule)) (planted : Planted source a nodes b)
    (built : buildDeclarators nodes fs = .ok (declarators, fs')) :
    Laid source fs a (declarators.map Declarator.part) fs' b := by
  unfold buildDeclarators at built
  split at built
  · cases built
    exact .nil planted.row
  · rename_i start stop text name rest
    obtain ⟨ds, fs₁, second, built⟩ := Build.run_bind_eq_ok built
    cases built
    obtain ⟨before, ripe, further⟩ := planted.cons
    have named : Laid source fs start [(buildIdentifier name).part] fs stop := ripe.planted.names
    have own := (Laid.wrapNode ripe.grown named).widen before (Nat.le_refl _)
    exact own.append (laid_buildDeclarators rest further second)
  · rename_i start stop text name init rest
    obtain ⟨e, fs₁, first, built⟩ := Build.run_bind_eq_ok built
    obtain ⟨ds, fs₂, second, built⟩ := Build.run_bind_eq_ok built
    cases built
    obtain ⟨before, ripe, further⟩ := planted.cons
    obtain ⟨before', ripeName, rest'⟩ := ripe.planted.cons
    obtain ⟨before'', ripeInit, rest''⟩ := rest'.cons
    have named : Laid source fs start [(buildIdentifier name).part] fs name.stop :=
      (Laid.name ripeName.grown).widen before' (Nat.le_refl _)
    have initial := (ripeInit.fits first).laid.widen before'' rest''.row
    have own := (Laid.wrapNode ripe.grown (named.append initial)).widen before (Nat.le_refl _)
    exact own.append (laid_buildDeclarators rest further second)
  · cases built
termination_by sizeOf nodes

theorem laid_buildOptional {fs fs' : Array FunctionDefinition} {nodes : List (Node Rule)}
    {e : Option Expression} (planted : Planted source a nodes b)
    (built : buildOptional nodes fs = .ok (e, fs')) :
    Laid source fs a (e.toList.map Expression.part) fs' b := by
  cases nodes with
  | nil =>
    rw [buildOptional] at built
    cases built
    exact .nil planted.row
  | cons node rest =>
    rw [buildOptional] at built
    obtain ⟨e, fs₁, first, built⟩ := Build.run_bind_eq_ok built
    cases built
    obtain ⟨before, ripe, further⟩ := planted.cons
    exact (ripe.fits first).laid.widen before further.row.le

theorem laid_buildLoopStart {fs fs' : Array FunctionDefinition} {node : Node Rule}
    {start : Option LoopStart} (ripe : Ripe source node)
    (built : buildLoopStart (nodeSpan node) node.children fs = .ok (start, fs')) :
    Laid source fs node.start (start.toList.map LoopStart.part) fs' node.stop := by
  have planted := ripe.planted
  generalize node.children = nodes at built planted
  unfold buildLoopStart at built
  split at built
  · cases built
    exact .nil ripe.grown.ordered
  · rename_i x y text ks declarators
    obtain ⟨kind, fs₁, first, built⟩ := Build.run_bind_eq_ok built
    obtain ⟨ds, fs₂, second, built⟩ := Build.run_bind_eq_ok built
    cases built
    cases reads_buildKind _ _ _ _ first
    exact .wrapNode ripe.grown (laid_buildDeclarators declarators planted.skip second)
  · rename_i inner rest _
    obtain ⟨e, fs₁, first, built⟩ := Build.run_bind_eq_ok built
    cases built
    obtain ⟨before, ripeInner, further⟩ := planted.cons
    exact (ripeInner.fits first).laid.widen before further.row.le

theorem laid_buildStatements {fs fs' : Array FunctionDefinition} {a b : Nat}
    {body : List Statement} (nodes : List (Node Rule))
    (planted : Planted source a nodes b) (built : buildStatements nodes fs = .ok (body, fs')) :
    Laid source fs a (statementParts body) fs' b := by
  unfold buildStatements at built
  split at built
  · cases built
    exact .nil planted.row
  · rename_i start stop text ks rest
    exact laid_buildStatements rest planted.skip built
  · rename_i node rest _
    obtain ⟨s, fs₁, first, built⟩ := Build.run_bind_eq_ok built
    obtain ⟨others, fs₂, second, built⟩ := Build.run_bind_eq_ok built
    cases built
    obtain ⟨before, ripe, further⟩ := planted.cons
    have own := (ripe.laid first).1.widen before (Nat.le_refl _)
    exact own.append (laid_buildStatements rest further second)
termination_by sizeOf nodes

/-! ## What is added for one node -/

section Nodes

variable {fs fs' : Array FunctionDefinition} {node : Node Rule}

/-- What is added for a function, whose children end with its parameters and its body.  Between the
word that opens it and the parameters there is its name, if it has one. -/
theorem laid_function {word parameters last : Node Rule} (names : List (Node Rule))
    {name declared : Option Identifier} {body : List Statement} (grown : node.Grown grammar source)
    (isFunction : node.rule ∈ [Rule.functionDeclaration, .functionExpression])
    (planted : Planted source node.start node.children node.stop)
    (children : node.children = word :: (names ++ [parameters, last]))
    (isName : name.toList = names.map buildIdentifier)
    (built : buildStatements last.children fs = .ok (body, fs'))
    (named : ∀ identifier, declared = some identifier → name = some identifier) :
    Laid source fs node.start [.mk (nodeSpan node) (.function fs'.size declared) []]
      (fs'.push ⟨nodeSpan node, name, parameters.children.map buildIdentifier, body⟩)
      node.stop := by
  have front : node.children = (word :: (names ++ [parameters])) ++ [last] := by
    rw [children, List.cons_append, List.append_assoc]
    rfl
  obtain ⟨stop, ends, row⟩ := exists_body_of_function grown isFunction front
  rw [children] at planted
  obtain ⟨middle, ripeNames, rest⟩ := planted.skip.split
  obtain ⟨before, ripeParameters, rest⟩ := rest.cons
  obtain ⟨before', ripeBody, -⟩ := rest.cons
  have heads : Laid source fs node.start
      ((names.map buildIdentifier).map Identifier.part) fs middle :=
    ripeNames.names
  have formals : Laid source fs parameters.start
      ((parameters.children.map buildIdentifier).map Identifier.part) fs parameters.stop :=
    ripeParameters.planted.names
  have inside := laid_buildStatements last.children ⟨row, ripeBody.planted.ripe⟩ built
  let f : FunctionDefinition :=
    ⟨nodeSpan node, name, parameters.children.map buildIdentifier, body⟩
  have parts : Laid source fs f.span.start f.parts fs' stop := by
    rw [FunctionDefinition.parts, isName]
    exact heads.append ((formals.widen before before').append inside)
  exact parts.close ends grown.startsBetween grown.stopsBetween named

/-- What is added for an expression, if it is known what is added for the nodes below. -/
theorem fits_buildExpression {e : Expression} (grown : node.Grown grammar source)
    (planted : Planted source node.start node.children node.stop)
    (built : buildExpression node fs = .ok (e, fs')) :
    e.Fits source fs node.start fs' node.stop := by
  unfold buildExpression at built
  split at built
  · -- An assignment: the target is a name or a property, and it is a part as it was built.
    obtain ⟨left, fs₁, first, built⟩ := Build.run_bind_eq_ok built
    obtain ⟨before, ripeTarget, rest⟩ := planted.cons
    obtain ⟨before', ripeValue, rest⟩ := rest.cons
    have target := (ripeTarget.fits first).laid.widen before (Nat.le_refl _)
    split at built
    · obtain ⟨right, fs₂, second, built⟩ := Build.run_bind_eq_ok built
      cases built
      have value := (ripeValue.fits second).laid.widen before' rest.row
      exact .ofNode grown rfl (.wrapNode grown (target.append value))
    · obtain ⟨right, fs₂, second, built⟩ := Build.run_bind_eq_ok built
      cases built
      have value := (ripeValue.fits second).laid.widen before' rest.row
      exact .ofNode grown rfl (.wrapNode grown (target.append value))
    · cases built
  · -- A chain of operators.
    obtain ⟨left, fs₁, first, built⟩ := Build.run_bind_eq_ok built
    obtain ⟨before, ripe, rest⟩ := planted.cons
    exact fits_buildChain _ ((ripe.fits first).widen before (Nat.le_refl _)) rest built
  · -- An operator before an operand.
    obtain ⟨operator, fs₁, first, built⟩ := Build.run_bind_eq_ok built
    obtain ⟨e, fs₂, second, built⟩ := Build.run_bind_eq_ok built
    cases built
    cases reads_buildUnaryOperator _ _ _ _ first
    obtain ⟨before, ripe, rest⟩ := planted.skip.cons
    exact .ofNode grown rfl (.wrapNode grown ((ripe.fits second).laid.widen before rest.row))
  · -- Properties and calls.
    obtain ⟨base, fs₁, first, built⟩ := Build.run_bind_eq_ok built
    obtain ⟨before, ripe, rest⟩ := planted.cons
    exact fits_buildSuffixes _ ((ripe.fits first).widen before (Nat.le_refl _)) rest built
  · cases built
    exact .ofNode grown rfl (.name grown)
  · obtain ⟨x, fs₁, first, built⟩ := Build.run_bind_eq_ok built
    cases built
    cases reads_buildNumeral _ _ _ _ first
    exact .ofNode grown rfl (.wrapNode grown (.nil grown.ordered))
  · cases built
    exact .ofNode grown rfl (.wrapNode grown (.nil grown.ordered))
  · cases built
    exact .ofNode grown rfl (.wrapNode grown (.nil grown.ordered))
  · cases built
    exact .ofNode grown rfl (.wrapNode grown (.nil grown.ordered))
  · obtain ⟨properties, fs₁, first, built⟩ := Build.run_bind_eq_ok built
    cases built
    exact .ofNode grown rfl (.wrapNode grown (laid_buildProperties _ planted first))
  · obtain ⟨elements, fs₁, first, built⟩ := Build.run_bind_eq_ok built
    cases built
    exact .ofNode grown rfl (.wrapNode grown (laid_buildExpressions planted first))
  · -- A function without a name.
    obtain ⟨body, fs₁, first, built⟩ := Build.run_bind_eq_ok built
    cases built
    exact .ofNode grown rfl
      (laid_function [] grown (by simp [Node.rule]) planted rfl rfl first (by simp))
  · -- A function with a name.
    rename_i name _ _ _ _ _ _
    obtain ⟨body, fs₁, first, built⟩ := Build.run_bind_eq_ok built
    cases built
    exact .ofNode grown rfl
      (laid_function [name] grown (by simp [Node.rule]) planted rfl rfl first (by simp))
  · cases built

/-- What is added for a statement, if it is known what is added for the nodes below. -/
theorem laid_buildStatement {s : Statement} (grown : node.Grown grammar source)
    (planted : Planted source node.start node.children node.stop)
    (built : buildStatement node fs = .ok (s, fs')) :
    Laid source fs node.start [s.part] fs' node.stop ∧ s.span = nodeSpan node := by
  unfold buildStatement at built
  split at built
  · rename_i name _ _ _ _ _ _
    obtain ⟨body, fs₁, first, built⟩ := Build.run_bind_eq_ok built
    cases built
    exact ⟨laid_function [name] grown (by simp [Node.rule]) planted rfl rfl first fun _ => id,
      rfl⟩
  · obtain ⟨kind, fs₁, first, built⟩ := Build.run_bind_eq_ok built
    obtain ⟨ds, fs₂, second, built⟩ := Build.run_bind_eq_ok built
    cases built
    cases reads_buildKind _ _ _ _ first
    exact ⟨.wrapNode grown (laid_buildDeclarators _ planted.skip second), rfl⟩
  · obtain ⟨e, fs₁, first, built⟩ := Build.run_bind_eq_ok built
    obtain ⟨s, fs₂, second, built⟩ := Build.run_bind_eq_ok built
    cases built
    obtain ⟨before, ripeTest, rest⟩ := planted.skip.cons
    obtain ⟨before', ripeConsequent, rest⟩ := rest.cons
    have test := (ripeTest.fits first).laid.widen before (Nat.le_refl _)
    have consequent := (ripeConsequent.laid second).1.widen before' rest.row
    exact ⟨.wrapNode grown (test.append consequent), rfl⟩
  · obtain ⟨e, fs₁, first, built⟩ := Build.run_bind_eq_ok built
    obtain ⟨s, fs₂, second, built⟩ := Build.run_bind_eq_ok built
    obtain ⟨s', fs₃, third, built⟩ := Build.run_bind_eq_ok built
    cases built
    obtain ⟨before, ripeTest, rest⟩ := planted.skip.cons
    obtain ⟨before', ripeConsequent, rest⟩ := rest.cons
    obtain ⟨before'', ripeAlternate, rest⟩ := rest.skip.cons
    have test := (ripeTest.fits first).laid.widen before (Nat.le_refl _)
    have consequent := (ripeConsequent.laid second).1.widen before' (Nat.le_refl _)
    have alternate := (ripeAlternate.laid third).1.widen before'' rest.row
    exact ⟨.wrapNode grown (test.append (consequent.append alternate)), rfl⟩
  · obtain ⟨e, fs₁, first, built⟩ := Build.run_bind_eq_ok built
    obtain ⟨s, fs₂, second, built⟩ := Build.run_bind_eq_ok built
    cases built
    obtain ⟨before, ripeTest, rest⟩ := planted.skip.cons
    obtain ⟨before', ripeBody, rest⟩ := rest.cons
    have test := (ripeTest.fits first).laid.widen before (Nat.le_refl _)
    have body := (ripeBody.laid second).1.widen before' rest.row
    exact ⟨.wrapNode grown (test.append body), rfl⟩
  · obtain ⟨i, fs₁, first, built⟩ := Build.run_bind_eq_ok built
    obtain ⟨t, fs₂, second, built⟩ := Build.run_bind_eq_ok built
    obtain ⟨u, fs₃, third, built⟩ := Build.run_bind_eq_ok built
    obtain ⟨s, fs₄, fourth, built⟩ := Build.run_bind_eq_ok built
    cases built
    obtain ⟨before₁, ripeStart, rest⟩ := planted.skip.cons
    obtain ⟨before₂, ripeTest, rest⟩ := rest.cons
    obtain ⟨before₃, ripeUpdate, rest⟩ := rest.cons
    obtain ⟨before₄, ripeBody, rest⟩ := rest.cons
    have start := (laid_buildLoopStart ripeStart first).widen before₁ (Nat.le_refl _)
    have test := (laid_buildOptional ripeTest.planted second).widen before₂ (Nat.le_refl _)
    have update := (laid_buildOptional ripeUpdate.planted third).widen before₃ (Nat.le_refl _)
    have body := (ripeBody.laid fourth).1.widen before₄ rest.row
    exact ⟨.wrapNode grown (start.append (test.append (update.append body))), rfl⟩
  · obtain ⟨e, fs₁, first, built⟩ := Build.run_bind_eq_ok built
    cases built
    exact ⟨.wrapNode grown (laid_buildOptional planted.skip first), rfl⟩
  · obtain ⟨body, fs₁, first, built⟩ := Build.run_bind_eq_ok built
    cases built
    exact ⟨.wrapNode grown (laid_buildStatements _ planted first), rfl⟩
  · cases built
    exact ⟨.wrapNode grown (.nil grown.ordered), rfl⟩
  · obtain ⟨e, fs₁, first, built⟩ := Build.run_bind_eq_ok built
    cases built
    obtain ⟨before, ripe, rest⟩ := planted.cons
    exact ⟨.wrapNode grown ((ripe.fits first).laid.widen before rest.row.le), rfl⟩
  · cases built

/-- **What is added for any node of a match.**  The induction is on its derivation. -/
theorem ripe_of_grown (grown : node.Grown grammar source) : Ripe source node := by
  induction grown with
  | mk start kept body each ih =>
    have grown := Node.Grown.mk start kept body each
    have planted : Planted source _ _ _ := ⟨grown.row, ih⟩
    exact .intro grown ⟨fits_buildExpression grown planted, laid_buildStatement grown planted⟩ ih

end Nodes

end ScriptTrace
