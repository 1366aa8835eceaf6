import ScriptTrace.Proofs.OperatorChains
import ScriptTrace.Proofs.Renumbering

/-!
# Chains of operators are joined from left to right

The node of a chain is flat, and building joins its operands two by two from left to right, whatever
the operators are.  What a chain is built as is said here in terms of its operands alone: each of
them is accepted as a script of its own, and the expression of the chain is the left fold of theirs
(`operatorChain_parses_leftToRight`).

An operand in a chain is not quite what it is where it stands alone.

* It stands at other offsets, in a tree of the same outline.  Such trees are built alike, up to the
  offsets (`Twin`).
* It is built after the operands in front of it, so that its functions stand behind theirs.  Its
  references are moved on by the number of those functions (`buildExpression_after`), and this is
  how two pieces with functions are joined (`Piece.join`).

* `Piece`, `Piece.join`: expressions with their functions.
* `BuildsPiece`: what an operand is built as.
* `exists_built_links`: the induction along a chain.
* `operatorChain_parses_leftToRight`: the result for scripts.
-/

namespace ScriptTrace

open Peg Pattern ScriptTrace.Language

/-! ## Pieces -/

/-- An expression with the functions that it refers to. -/
structure Piece where
  expression : Expression
  functions : Array FunctionDefinition

namespace Piece

/-- The program that consists of one expression. -/
def program (piece : Piece) (span : Span) : Program :=
  ⟨[.expression span piece.expression], piece.functions⟩

/-- Two pieces with an operator between them.  The functions of the second one stand behind those of
the first. -/
def join (left : Piece) (operator : BinaryOperator) (right : Piece) : Piece where
  expression := .binary ⟨left.expression.span.start, right.expression.span.stop⟩ operator
    left.expression (right.expression.renumber left.functions.size)
  functions := left.functions ++
    right.functions.map (FunctionDefinition.renumber left.functions.size)

/-- What is left of a piece without its offsets. -/
def unplaced (piece : Piece) : Piece where
  expression := piece.expression.unplaced
  functions := piece.functions.map (FunctionDefinition.recast (.moving fun _ => 0))

end Piece

section Building

variable {nodes : List (Node Rule)} {piece : Piece} {node : Node Rule}

theorem Build.run_bind_of_ok {α β : Type} {x : Build α} {next : α → Build β}
    {fs fs' : Array FunctionDefinition} {a : α} (ran : x fs = .ok (a, fs')) :
    (x >>= next) fs = next a fs' := by
  show (x fs >>= fun result => next result.1 result.2) = _
  rw [ran]
  rfl

/-- An operand is built as a piece where it stands alone. -/
def BuildsPiece (nodes : List (Node Rule)) (piece : Piece) : Prop :=
  ∃ (source : List Char) (member : Node Rule), member.Grown grammar source ∧
    LooksLike [operandNode nodes] [member] ∧
    buildExpression member #[] = .ok (piece.expression, piece.functions)

theorem BuildsPiece.exists_twin (h : BuildsPiece nodes piece)
    (same : LooksLike [operandNode nodes] [node]) :
    ∃ member, Twin (fun _ => 0) (fun _ => 0) member node ∧
      buildExpression member #[] = .ok (piece.expression, piece.functions) := by
  obtain ⟨source, member, grown, own, built⟩ := h
  have alike : outline (fun _ => 0) member = outline (fun _ => 0) node :=
    (List.cons.inj own).1.symm.trans (List.cons.inj same).1
  exact ⟨member, ⟨portable_of_grown grown, alike⟩, built⟩

/-- The first operand of a chain is built as it is where it stands alone. -/
theorem BuildsPiece.exists_first (h : BuildsPiece nodes piece)
    (same : LooksLike [operandNode nodes] [node]) :
    ∃ left : Piece, buildExpression node #[] = .ok (left.expression, left.functions) ∧
      piece.unplaced = left.unplaced := by
  obtain ⟨member, twin, built⟩ := h.exists_twin same
  obtain ⟨e, fs, ran, sameExpression, sameFunctions⟩ := twin.expression rfl built
  exact ⟨⟨e, fs⟩, ran, Piece.mk.injEq .. ▸ ⟨sameExpression, sameFunctions⟩⟩

/-- **A further operand of a chain** is built as it is where it stands alone, with its references
moved on. -/
theorem BuildsPiece.exists_further (h : BuildsPiece nodes piece)
    (same : LooksLike [operandNode nodes] [node]) {base fs : Array FunctionDefinition}
    (sameFunctions : Build.SameFunctions (fun _ => 0) (fun _ => 0) base fs) :
    ∃ e fs', buildExpression node fs = .ok (e, fs') ∧
      (piece.expression.renumber base.size).unplaced = e.unplaced ∧
      Build.SameFunctions (fun _ => 0) (fun _ => 0)
        (base ++ piece.functions.map (FunctionDefinition.renumber base.size)) fs' := by
  obtain ⟨member, twin, built⟩ := h.exists_twin same
  obtain ⟨e, fs', ran, sameExpression, sameFunctions'⟩ :=
    twin.expression sameFunctions (buildExpression_after built base)
  exact ⟨e, fs', ran, sameExpression, sameFunctions'⟩

theorem outlines_eq_nil (same : LooksLike [] nodes) : nodes = [] := by
  cases nodes with
  | nil => rfl
  | cons node rest => exact nomatch same

theorem exists_of_looksLike_cons {first : Node Rule} {others : List (Node Rule)}
    (same : LooksLike (first :: others) nodes) :
    ∃ node rest, nodes = node :: rest ∧ LooksLike [first] [node] ∧ LooksLike others rest := by
  cases nodes with
  | nil => exact nomatch same
  | cons node rest =>
    obtain ⟨own, further⟩ := List.cons.inj same
    exact ⟨node, rest, rfl, congrArg ([·]) own, further⟩

theorem exists_of_looksLike_node {rule : Rule} {a b : Nat} {text : List Char}
    {children : List (Node Rule)} (same : LooksLike [.mk rule a b text children] [node]) :
    ∃ a' b' text' children', node = .mk rule a' b' text' children' ∧
      LooksLike children children' := by
  obtain ⟨a', b', text', children', rfl, -, -, -, below⟩ := exists_of_outline (List.cons.inj same).1
  exact ⟨a', b', text', children', rfl, below⟩

theorem buildBinaryOperator_of_looksLike {operator : BinaryOperator}
    (same : LooksLike [.mk .binaryOperator 0 0 operator.symbol.toList []] [node]) :
    buildBinaryOperator node = pure operator := by
  obtain ⟨_, _, _, _, rfl, -, -, text, -⟩ := exists_of_outline (List.cons.inj same).1
  have read : BinaryOperator.ofSymbol? operator.symbol = some operator := by
    cases operator <;> decide
  rw [buildBinaryOperator, Node.text, ← text rfl, String.ofList_toList, read]

variable {stands : List Char → List (Node Rule)} {own : List Char → Piece} {links : List Link}

/-- **The operands of a chain are joined from left to right.** -/
theorem exists_built_links
    (each : ∀ link ∈ links, BuildsPiece (stands link.operand) (own link.operand))
    (same : LooksLike (linkNodes stands links) nodes) {left left' : Piece}
    (sameLeft : left.unplaced = left'.unplaced) (chain : Node Rule) :
    ∃ whole : Piece, buildChain chain left'.expression nodes left'.functions =
        .ok (whole.expression, whole.functions) ∧
      (links.foldl (fun left link => left.join link.operator (own link.operand)) left).unplaced =
        whole.unplaced := by
  induction links generalizing nodes left left' with
  | nil =>
    obtain rfl := outlines_eq_nil same
    rw [buildChain]
    exact ⟨left', rfl, sameLeft⟩
  | cons link links ih =>
    obtain ⟨built, others⟩ := List.forall_mem_cons.mp each
    obtain ⟨operator, _, rfl, sign, same⟩ := exists_of_looksLike_cons same
    obtain ⟨operand, rest, rfl, member, same⟩ := exists_of_looksLike_cons same
    obtain ⟨sameExpression, sameFunctions⟩ := Piece.mk.inj sameLeft
    obtain ⟨e, fs, ran, sameOperand, sameFunctions'⟩ := built.exists_further member sameFunctions
    let joined : Piece :=
      ⟨.binary ⟨left'.expression.span.start, e.span.stop⟩ link.operator left'.expression e, fs⟩
    have sameJoined : (left.join link.operator (own link.operand)).unplaced = joined.unplaced := by
      refine Piece.mk.injEq .. ▸ ⟨?_, sameFunctions'⟩
      simp only [Piece.join, joined, Expression.unplaced_binary, sameExpression, sameOperand]
    obtain ⟨whole, ran', sameWhole⟩ := ih others same sameJoined
    refine ⟨whole, ?_, sameWhole⟩
    rw [buildChain, buildBinaryOperator_of_looksLike sign, pure_bind, Build.run_bind_of_ok ran]
    exact ran'

/-! ## Scripts -/

theorem Peg.Node.Grown.each {source : List Char} (grown : node.Grown grammar source) :
    ∀ child ∈ node.children, child.Grown grammar source := by
  cases grown with
  | mk _ _ _ each => exact each

/-- The parts of a script that is a chain, and what is built of them. -/
theorem exists_parts_of_script
    (h : NodeOf .script (LooksLike [.mk .expressionStatement 0 0 []
      [chainNode stands nodes links], .mk .endOfInput 0 0 [] []]) node) :
    ∃ span chain member rest, LooksLike [operandNode nodes] [member] ∧
      LooksLike (linkNodes stands links) rest ∧
      (∀ source, node.Grown grammar source → member.Grown grammar source) ∧
      buildStatements node.children = (do
        return [.expression span (← buildExpression member >>= fun left =>
          buildChain chain left rest)]) := by
  obtain ⟨_, _, _, _, rfl, parts⟩ := h
  obtain ⟨statement, _, rfl, isStatement, parts⟩ := exists_of_looksLike_cons parts
  obtain ⟨ending, _, rfl, isEnding, parts⟩ := exists_of_looksLike_cons parts
  obtain rfl := outlines_eq_nil parts
  obtain ⟨a, b, _, _, rfl, chains⟩ := exists_of_looksLike_node isStatement
  obtain ⟨chain, _, rfl, isChain, chains⟩ := exists_of_looksLike_cons chains
  obtain rfl := outlines_eq_nil chains
  obtain ⟨c, d, text, _, rfl, operands⟩ := exists_of_looksLike_node isChain
  obtain ⟨member, rest, rfl, isMember, sameLinks⟩ := exists_of_looksLike_cons operands
  obtain ⟨_, _, _, _, rfl, -⟩ := exists_of_looksLike_node isEnding
  refine ⟨⟨a, b⟩, .mk .binaryExpression c d text (member :: rest), member, rest, isMember,
    sameLinks, fun source grown => ?_, ?_⟩
  · have grownStatement := grown.each _ List.mem_cons_self
    have grownChain := grownStatement.each _ List.mem_cons_self
    exact grownChain.each _ List.mem_cons_self
  · show buildStatements [_, _] = _
    rw [buildStatements, buildStatement, buildExpression, buildStatements, buildStatements]
    · simp only [bind_assoc, pure_bind]
    · rintro _ _ _ _ ⟨⟩

/-- What is built of a script of one expression. -/
theorem ofNode_of_built {x : Build Expression} {span : Span}
    (run : buildStatements node.children = (do return [.expression span (← x)]))
    (ran : x #[] = .ok (piece.expression, piece.functions)) :
    Program.ofNode node = .ok (piece.program span) := by
  have program : Program.ofNode node =
      (buildStatements node.children #[] >>= fun built => .ok ⟨built.1, built.2⟩) := rfl
  rw [program, run, Build.run_bind_of_ok ran]
  rfl

/-- An operand alone is a script. -/
theorem exists_script_of_operand {text : List Char} (stands : StandsFor text nodes) :
    ∃ node stop span member, LooksLike [operandNode nodes] [member] ∧
      grammar.Gives .free (.rule .script) ⟨0, text⟩ (.matched [node] ⟨stop, []⟩) ∧
      (∀ source, node.Grown grammar source → member.Grown grammar source) ∧
      buildStatements node.children =
        (do return [.expression span (← buildExpression member)]) := by
  let none : List Char → List (Node Rule) := fun _ => []
  have each : ∀ link ∈ ([] : List Link), StandsFor link.operand (none link.operand) :=
    List.forall_mem_nil _
  obtain ⟨node, stop, script, gives⟩ := exists_script_of_chain each (.inl rfl) stands
  obtain ⟨span, _, member, rest, same, alone, grown, run⟩ := exists_parts_of_script script
  obtain rfl := outlines_eq_nil alone
  rw [writeLinks, List.append_nil] at gives
  refine ⟨node, stop, span, member, same, gives, grown, ?_⟩
  rw [run]
  simp only [buildChain, bind_pure]

/-- The piece of an operand is what is built of it where it stands alone. -/
theorem exists_piece {text : List Char} {program : Program} (stands : StandsFor text nodes)
    (parsed : parseScript (String.ofList text) = .ok program) :
    ∃ span piece, program = Piece.program piece span ∧ BuildsPiece nodes piece := by
  obtain ⟨node, stop, span, member, same, gives, grown, run⟩ := exists_script_of_operand stands
  obtain ⟨_, _, _, read, built⟩ := exists_node_of_parseScript parsed
  rw [String.toList_ofList] at read
  have alone := (ranked.gives_read .script text).2
  rw [read] at alone
  obtain ⟨nodes_eq, -⟩ := Outcome.matched.inj (gives.unique alone)
  obtain ⟨rfl, rfl⟩ := List.cons.inj nodes_eq
  have whole := (Grammar.matches_of_read read).grown ⟨[], .refl _⟩ node List.mem_cons_self
  rw [run] at built
  obtain ⟨e, fs, first, last⟩ := Build.run_bind_eq_ok built
  obtain ⟨body, functions⟩ := program
  cases last
  exact ⟨span, ⟨e, _⟩, rfl, text, member, grown text whole, same, first⟩

theorem buildExpression_of_primary {a b : Nat} {text : List Char} {primary : Node Rule}
    {fs fs' : Array FunctionDefinition} {e : Expression}
    (ran : buildExpression primary fs = .ok (e, fs')) :
    buildExpression (.mk .memberExpression a b text [primary]) fs = .ok (e, fs') := by
  rw [buildExpression, Build.run_bind_of_ok ran, buildSuffixes]
  rfl

/-- A name or a literal alone is accepted. -/
theorem exists_program_of_literal {rule : Rule} {text : List Char} (mem : rule ∈ literalRules)
    (accepted : accepts rule text = true) :
    ∃ program, parseScript (String.ofList text) = .ok program := by
  obtain ⟨nodes, stop, gives⟩ := gives_of_accepts accepted
  have read : (grammar.read rule text).1 = .matched nodes ⟨stop, []⟩ :=
    (ranked.gives_read rule text).2.unique gives
  have left : rule.Leaves nodes := closed_leaves.leaves_of_read read
  obtain ⟨word, rfl, isWord⟩ : Single (IsWord rule) nodes := by
    simp only [literalRules, List.mem_cons, List.not_mem_nil, or_false] at mem
    rcases mem with rfl | rfl | rfl | rfl | rfl <;> exact left
  have builds : BuildsExpression word := isWord.buildsExpression (by
    simpa [literalRules] using mem)
  rw [BuildsExpression, isWord.invalidTargets_eq] at builds
  obtain ⟨e, fs, ran, -⟩ := builds #[]
  have grown := (Grammar.matches_of_read read).grown ⟨[], .refl _⟩ word List.mem_cons_self
  obtain ⟨node, stop, span, member, same, gives, -, run⟩ :=
    exists_script_of_operand (standsFor_literal mem accepted read)
  obtain ⟨_, _, _, _, rfl, below⟩ := exists_of_looksLike_node same
  obtain ⟨primary, _, rfl, samePrimary, below⟩ := exists_of_looksLike_cons below
  obtain rfl := outlines_eq_nil below
  have twin : Twin (fun _ => 0) (fun _ => 0) word primary :=
    ⟨portable_of_grown grown, (List.cons.inj samePrimary).1⟩
  obtain ⟨e', fs', ran', -⟩ := twin.expression rfl ran
  let piece : Piece := ⟨e', fs'⟩
  have built : Program.ofNode node = .ok (piece.program span) :=
    ofNode_of_built run (buildExpression_of_primary ran')
  exact ⟨_, parseScript_of_gives gives built⟩

/-- An operand is matched as some nodes, and built as a piece where it stands alone. -/
structure Operates (text : List Char) (nodes : List (Node Rule)) (piece : Piece) : Prop where
  stands : StandsFor text nodes
  parsed : ∃ span, parseScript (String.ofList text) = .ok (piece.program span)
  builds : BuildsPiece nodes piece

theorem exists_operates {text : List Char} (h : IsOperand text)
    (parsed : text.head? = some '(' → ∃ program, parseScript (String.ofList text) = .ok program) :
    ∃ nodes piece, Operates text nodes piece := by
  have accepted : ∃ program, parseScript (String.ofList text) = .ok program := by
    cases h with
    | word mem accepted => exact exists_program_of_literal mem accepted
    | parentheses _ => exact parsed rfl
  obtain ⟨nodes, stands⟩ := exists_standsFor h parsed
  obtain ⟨program, parsed⟩ := accepted
  obtain ⟨span, piece, rfl, builds⟩ := exists_piece stands parsed
  exact ⟨nodes, piece, stands, ⟨span, parsed⟩, builds⟩

/-- A chain of operands. -/
theorem parseScript_of_operates {first : List Char} {fin : List Char}
    (isEnd : fin = [] ∨ fin = [';']) (start : Operates first (stands first) (own first))
    (each : ∀ link ∈ links, Operates link.operand (stands link.operand) (own link.operand)) :
    ∃ span whole, parseScript (String.ofList (first ++ writeLinks links fin)) =
        .ok (Piece.program whole span) ∧
      whole.unplaced = (links.foldl (fun left link => left.join link.operator (own link.operand))
        (own first)).unplaced := by
  obtain ⟨node, stop, script, gives⟩ :=
    exists_script_of_chain (fun link mem => (each link mem).stands) isEnd start.stands
  obtain ⟨span, _, member, rest, same, sameLinks, -, run⟩ := exists_parts_of_script script
  obtain ⟨left, ran, sameLeft⟩ := start.builds.exists_first same
  obtain ⟨whole, ran', sameWhole⟩ :=
    exists_built_links (fun link mem => (each link mem).builds) sameLinks sameLeft _
  have built : Program.ofNode node = .ok (whole.program span) :=
    ofNode_of_built run ((Build.run_bind_of_ok ran).trans ran')
  exact ⟨span, whole, parseScript_of_gives gives built, sameWhole.symm⟩

end Building

/-- **Chains of operators are joined from left to right**, without precedence.  Operands are names,
literals, and expressions in parentheses that are accepted as scripts of their own; they stand in a
row with operators between them, blanks anywhere around the operators, and a semicolon at the end.
Then the chain is accepted, it is one statement, and up to the offsets its expression is the left
fold of those that the operands are as scripts of their own, with the operators as they are
written. -/
theorem operatorChain_parses_leftToRight (first : List Char) (links : List Link)
    (isOperand : IsOperand first)
    (parsed : ∀ text ∈ first :: links.map Link.operand, text.head? = some '(' →
      ∃ program, parseScript (String.ofList text) = .ok program) :
    ∃ own : List Char → Piece,
      (∀ text ∈ first :: links.map Link.operand,
        ∃ span, parseScript (String.ofList text) = .ok ((own text).program span)) ∧
      ∃ span whole, parseScript (String.ofList (first ++ writeLinks links [';'])) =
          .ok (Piece.program whole span) ∧
        whole.unplaced = (links.foldl (fun left link => left.join link.operator
          (own link.operand)) (own first)).unplaced := by
  have operands : ∀ text ∈ first :: links.map Link.operand, IsOperand text :=
    List.forall_mem_cons.mpr ⟨isOperand, List.forall_mem_map.mpr fun link _ => link.isOperand⟩
  have found : ∀ text, ∃ nodes piece, text ∈ first :: links.map Link.operand →
      Operates text nodes piece := by
    intro text
    by_cases mem : text ∈ first :: links.map Link.operand
    · obtain ⟨nodes, piece, operates⟩ := exists_operates (operands text mem) (parsed text mem)
      exact ⟨nodes, piece, fun _ => operates⟩
    · exact ⟨[], ⟨.literal ⟨0, 0⟩ .null, #[]⟩, fun mem' => absurd mem' mem⟩
  choose stands own operates using found
  refine ⟨own, fun text mem => (operates text mem).parsed, ?_⟩
  refine parseScript_of_operates (.inr rfl) (operates first List.mem_cons_self) fun link mem => ?_
  exact operates link.operand (.tail _ (List.mem_map_of_mem mem))

/-- Links with signs that could be read as parts of longer operators, of comments or of numerals,
and with functions in two operands. -/
def mixedLinks : List Link :=
  [{ before := [' '], operator := .lessThan, after := []
     operand := '(' :: ("function()\x7bf(')');\x7d".toList ++ [')'])
     blankBefore := List.forall_mem_singleton.mpr (by decide)
     blankAfter := List.forall_mem_nil _
     isOperand := .parentheses (by decide +kernel) },
   { before := [], operator := .divide, after := []
     operand := "'*/'".toList
     blankBefore := List.forall_mem_nil _
     blankAfter := List.forall_mem_nil _
     isOperand := @IsOperand.word .stringLiteral _ (by decide) (by decide +kernel) },
   { before := [], operator := .strictlyEqual, after := []
     operand := "0x1e".toList
     blankBefore := List.forall_mem_nil _
     blankAfter := List.forall_mem_nil _
     isOperand := @IsOperand.word .numericLiteral _ (by decide) (by decide +kernel) },
   { before := [], operator := .subtract, after := ['\n']
     operand := '(' :: ("g=function()\x7b\x7d".toList ++ [')'])
     blankBefore := List.forall_mem_nil _
     blankAfter := List.forall_mem_singleton.mpr (by decide)
     isOperand := .parentheses (by decide +kernel) }]

/-- The function of the last operand is the second one of the chain. -/
theorem mixedChain_parses_leftToRight :
    IsOperand "true".toList ∧
      (∀ text ∈ "true".toList :: mixedLinks.map Link.operand, text.head? = some '(' →
        ∃ program, parseScript (String.ofList text) = .ok program) ∧
      ∃ own : List Char → Piece, ∃ span whole,
        parseScript "true <(function()\x7bf(')');\x7d)/'*/'===0x1e-\n(g=function()\x7b\x7d);" =
            .ok (Piece.program whole span) ∧
          whole.unplaced = (mixedLinks.foldl (fun left link => left.join link.operator
            (own link.operand)) (own "true".toList)).unplaced := by
  have isOperand : IsOperand "true".toList :=
    @IsOperand.word .booleanLiteral _ (by decide) (by decide +kernel)
  have parsed : ∀ text ∈ "true".toList :: mixedLinks.map Link.operand, text.head? = some '(' →
      ∃ program, parseScript (String.ofList text) = .ok program := by
    have all : ("true".toList :: mixedLinks.map Link.operand).all (fun text =>
        (parseScript (String.ofList text)).toOption.isSome) = true := by decide +kernel
    intro text mem _
    obtain ⟨program, some⟩ := Option.isSome_iff_exists.mp (List.all_eq_true.mp all text mem)
    obtain ⟨_, accepted, -⟩ := exists_ok_of_toOption_map ((Option.map_id_apply).trans some)
    exact ⟨_, accepted⟩
  obtain ⟨own, -, span, whole, chain, joined⟩ :=
    operatorChain_parses_leftToRight "true".toList mixedLinks isOperand parsed
  have text_eq : "true".toList ++ writeLinks mixedLinks [';'] =
      "true <(function()\x7bf(')');\x7d)/'*/'===0x1e-\n(g=function()\x7b\x7d);".toList := by
    decide +kernel
  rw [text_eq, String.ofList_toList] at chain
  exact ⟨isOperand, parsed, own, span, whole, chain, joined⟩

end ScriptTrace
