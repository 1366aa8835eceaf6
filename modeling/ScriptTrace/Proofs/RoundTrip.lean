import ScriptTrace.Parse
import ScriptTrace.Proofs.Rendering

/-!
# Every expression can be written down

The text of an expression is read back as the expression that it was written from, up to stretches
of source (`parseScript_expresses`).

## The induction

The text of an expression is taken by the rule for expressions before a closing parenthesis, and the
node that is left is built as the expression (`Writes`).  With the parentheses around it the
expression is an operand, whatever it was before (`Writes.operand`), and the other forms are made of
operands only.  So each form has one lemma that knows nothing of the forms of its parts, and the
induction over the expression puts them together (`writes`).

A closing parenthesis ends every name and every numeral, which is why the text in front of it can be
any expression.

* `Writes`, with a lemma for each form of expression.
* `writes`: the induction.
* `parseScript_expresses`: the result for scripts.
-/

namespace ScriptTrace

open Peg Pattern ScriptTrace.Language

/-- A text is read as an expression before a closing parenthesis.  The text is a function that puts
it before what follows. -/
def Writes (w : List Char → List Char) (e : Expression) : Prop :=
  ∀ rest, grammar.Takes .free (.rule .expression) (w (')' :: rest)) (')' :: rest)
    (Single (ReadAs e))

section Operands

variable {w v : List Char → List Char} {e base value : Expression} {c : Char} {rest : List Char}

/-! ## Operands -/

/-- An expression in parentheses. -/
theorem Writes.primary (h : Writes w e) (rest : List Char) :
    grammar.Takes .free (.rule .primaryExpression) ('(' :: w (')' :: rest)) rest
      (Single (ReadAs e)) :=
  takes_parentheses (h rest)

theorem Writes.operand (h : Writes w e) (ends : Ends rest) :
    grammar.Takes .free (.rule .memberExpression) ('(' :: w (')' :: rest)) rest
      (Single (ReadAs e)) :=
  (takes_member_of_ends (h.primary rest) ends).mono fun _ one => one.imp fun _ => readAs_operand

theorem takes_expression_of_operand {text : List Char}
    (h : grammar.Takes .free (.rule .memberExpression) text (c :: rest) (Single (ReadAs e)))
    (mem : c ∈ closers) :
    grammar.Takes .free (.rule .expression) text (c :: rest) (Single (ReadAs e)) :=
  (takes_expression_of_member h (closes_of_mem mem rest)).mono
    fun _ one => one.imp fun _ => readAs_chain

/-- An expression in parentheses as an item of a list. -/
theorem Writes.listed (h : Writes w e) :
    Listed .expression ReadAs (fun tail => '(' :: w (')' :: tail)) e :=
  fun _ mem rest => takes_expression_of_operand (h.operand (closes_of_mem mem rest).toEnds) mem

theorem writes_of_primary
    (h : ∀ rest, grammar.Takes .free (.rule .primaryExpression) (w (')' :: rest)) (')' :: rest)
      (Single (ReadAs e))) : Writes w e := by
  intro rest
  have closes : Closes (')' :: rest) := closes_of_mem (by decide) rest
  have operand := (takes_member_of_ends (h rest) closes.toEnds).mono
    fun _ one => one.imp fun _ => readAs_operand
  exact takes_expression_of_operand operand (by decide)

/-! ## Words and strings -/

theorem single_of_leafOf {P : Node Rule → Prop} {rule : Rule} {text : List Char}
    {nodes : List (Node Rule)} (leaf : LeafOf rule text nodes)
    (each : ∀ a b ks, P (.mk rule a b text ks)) : Single P nodes := by
  obtain ⟨a, b, ks, rfl⟩ := leaf
  exact ⟨_, rfl, each a b ks⟩

theorem takes_string (s : String) (tail : List Char) :
    grammar.Takes .free (.rule .stringLiteral) (writeString s tail) tail
      (Single (SpellsString s)) := by
  have quotable := quotable_escapeIn '"' s.toList
  refine (takes_stringLiteral (.inl rfl) quotable tail).mono fun nodes known => ?_
  obtain ⟨a, b, text, inner, eq, leaf⟩ := known
  exact ⟨_, eq, a, b, text, inner, rfl, leaf⟩

/-- A name as an operand.  It is tried last, and all rules for reserved words refuse it. -/
theorem takes_name (name : Identifier) (accepted : accepts .identifier name.name.toList = true)
    (ends : c ∈ wordEnds) (rest : List Char) :
    grammar.Takes .free (.rule .primaryExpression) (name.name.toList ++ c :: rest) (c :: rest)
      (Single (ReadAs (.identifier name))) := by
  have taken : grammar.Takes .free (.rule .identifier) _ _ _ :=
    takes_word (by decide) ends accepted rest
  have function : grammar.Refuses .free (.rule .functionExpression) _ :=
    .rule (.seq (refuses_keyword accepted (by decide)
      (show _ = keyword (oneOfWords "function" []) from rfl) (by decide) ends rest) _)
  have boolean : grammar.Refuses .free (.rule .booleanLiteral) _ :=
    refuses_keyword accepted (by decide)
      (show _ = keyword (oneOfWords "true" ["false"]) from rfl) (by decide) ends rest
  have null : grammar.Refuses .free (.rule .nullLiteral) _ :=
    refuses_keyword accepted (by decide)
      (show _ = keyword (oneOfWords "null" []) from rfl) (by decide) ends rest
  refine (takes_primary 7 taken rfl ?_).mono fun nodes leaf =>
    single_of_leafOf leaf (readAs_name name)
  refine List.forall_mem_cons.mpr ⟨function, ?_⟩
  exact List.forall_mem_cons.mpr ⟨boolean, List.forall_mem_singleton.mpr null⟩

theorem writes_name (name : Identifier) (accepted : accepts .identifier name.name.toList = true) :
    Writes (fun tail => name.name.toList ++ tail) (.identifier name) :=
  writes_of_primary fun rest => takes_name name accepted (by decide) rest

theorem takes_boolean (span : Span) (value : Bool) (rest : List Char) :
    grammar.Takes .free (.rule .primaryExpression)
      ((if value then "true" else "false").toList ++ ')' :: rest) (')' :: rest)
      (Single (ReadAs (.literal span (.bool value)))) := by
  have accepted : accepts .booleanLiteral (if value then "true" else "false").toList = true := by
    cases value <;> decide +kernel
  have taken : grammar.Takes .free (.rule .booleanLiteral) _ _ _ :=
    takes_word (by decide) (show ')' ∈ wordEnds by decide) accepted rest
  -- the word for a function begins with the letter of one of the two words
  have function : grammar.Refuses .free (.rule .functionExpression)
      ((if value then "true" else "false").toList ++ ')' :: rest) := by
    refine .rule (.seq (.rule (.seq (Grammar.refuses_text ?_) _)) _)
    cases value <;> exact fun begins => by simp at begins
  refine (takes_primary 5 taken rfl (List.forall_mem_singleton.mpr function)).mono ?_
  exact fun nodes leaf => single_of_leafOf leaf (readAs_boolean span value)

theorem takes_null (span : Span) (rest : List Char) :
    grammar.Takes .free (.rule .primaryExpression) ("null".toList ++ ')' :: rest) (')' :: rest)
      (Single (ReadAs (.literal span .null))) := by
  have taken : grammar.Takes .free (.rule .nullLiteral) _ _ _ :=
    takes_word (by decide) (show ')' ∈ wordEnds by decide)
      (show accepts .nullLiteral "null".toList = true by decide +kernel) rest
  refine (takes_primary 6 taken rfl (fun _ none => nomatch none)).mono fun nodes leaf => ?_
  exact single_of_leafOf leaf fun a b ks => readAs_null span a b _ ks

/-! ## Properties and calls -/

/-- A property of an operand, before a character that ends both the name and the operand. -/
theorem Writes.property (h : Writes w base) (span : Span) {property : Identifier}
    (accepted : accepts .identifierName property.name.toList = true) (word : c ∈ wordEnds)
    (ends : Ends (c :: rest)) :
    grammar.Takes .free (.rule .memberExpression)
      ('(' :: w (')' :: '.' :: (property.name.toList ++ c :: rest))) (c :: rest)
      (Single (ReadAs (.member span base property))) := by
  have taken : grammar.Takes .free (.rule .identifierName) _ _ _ :=
    takes_word (by decide) word accepted rest
  have quiet : grammar.Quiet .free _ := quiet_of_takes (by decide) taken
  have dot := takes_node .dotProperty rfl ((takes_sign '.' _).seq
    (S := LeafOf .identifierName property.name.toList) quiet taken fun _ _ => append_of_nil_left)
  have operand := takes_member_of_suffix (h.primary _) (quiet_sign (by decide) _)
    (dot.choice _) ends Pair.of_single
  exact operand.mono fun _ one => one.imp fun _ => readAs_property span

theorem Writes.member (h : Writes w base) (span : Span) {property : Identifier}
    (accepted : accepts .identifierName property.name.toList = true) :
    Writes (fun tail => '(' :: w (')' :: '.' :: (property.name.toList ++ tail)))
      (.member span base property) := by
  intro rest
  have closes : Closes (')' :: rest) := closes_of_mem (by decide) rest
  exact takes_expression_of_operand (h.property span accepted (by decide) closes.toEnds) (by decide)

theorem Writes.call {texts : List (List Char → List Char)} {arguments : List Expression}
    (h : Writes w e) (span : Span)
    (each : List.Forall₂ (Listed .expression ReadAs) texts arguments) :
    Writes (fun tail => '(' :: w (')' :: '(' :: separated texts (')' :: tail)))
      (.call span e arguments) := by
  intro rest
  have closes : Closes (')' :: rest) := closes_of_mem (by decide) rest
  have list := takes_node .callArguments rfl
    (takes_brackets (by decide) (show ')' ∈ closers by decide) (by decide) each '(' (')' :: rest))
  have noDot : grammar.Refuses .free (.rule .dotProperty)
      ('(' :: separated texts (')' :: ')' :: rest)) :=
    .rule (.seq (refuses_text_of_ne (by decide) _) _)
  have operand := takes_member_of_suffix (h.primary _) (quiet_sign (by decide) _)
    (.choice_of_refuses noDot list) closes.toEnds Pair.of_single
  exact takes_expression_of_operand
    (operand.mono fun _ one => one.imp fun _ => readAs_call span) (by decide)

/-! ## Lists -/

theorem writes_array {texts : List (List Char → List Char)} {elements : List Expression}
    (span : Span) (each : List.Forall₂ (Listed .expression ReadAs) texts elements) :
    Writes (fun tail => '[' :: separated texts (']' :: tail)) (.array span elements) := by
  refine writes_of_primary fun rest => ?_
  have list := takes_node .arrayLiteral rfl
    (takes_brackets (by decide) (show ']' ∈ closers by decide) (by decide) each '[' (')' :: rest))
  refine (takes_primary 2 list rfl (fun _ none => nomatch none)).mono fun nodes one => ?_
  exact one.imp fun _ => readAs_array span

theorem writes_object {texts : List (List Char → List Char)}
    {properties : List (Property Expression)} (span : Span)
    (each : List.Forall₂ (Listed .propertyDefinition ReadAsProperty) texts properties) :
    Writes (fun tail => '\x7b' :: separated texts ('\x7d' :: tail)) (.object span properties) := by
  refine writes_of_primary fun rest => ?_
  have list := takes_node .objectLiteral rfl
    (takes_brackets (by decide) (show '\x7d' ∈ closers by decide) (by decide) each '\x7b'
      (')' :: rest))
  refine (takes_primary 1 list rfl (fun _ none => nomatch none)).mono fun nodes one => ?_
  exact one.imp fun _ => readAs_object span

/-! ## Operations and assignments -/

theorem Writes.unary (h : Writes w e) (span : Span) (operator : UnaryOperator) :
    Writes (fun tail => operator.symbol.toList ++ '(' :: w (')' :: tail))
      (.unary span operator e) := by
  intro rest
  have closes : Closes (')' :: rest) := closes_of_mem (by decide) rest
  have operand := takes_unary_of_member (h.operand closes.toEnds)
  have chain := takes_prefix operator operand closes
    (S := Pair (·.text = operator.symbol.toList) (ReadAs e))
    fun xs ys sign => Pair.of_single xs ys (single_of_leafOf sign fun _ _ _ => rfl)
  refine chain.mono fun _ one => one.imp fun _ ⟨a, b, taken, ks, eq, inner⟩ => ?_
  exact readAs_chain ⟨a, b, taken, ks, eq, inner.imp fun _ => readAs_unary span⟩

theorem Writes.binary (h : Writes w base) (h' : Writes v value) (span : Span)
    (operator : BinaryOperator) :
    Writes (fun tail => '(' :: w (')' :: (operator.symbol.toList ++ '(' :: v (')' :: tail))))
      (.binary span operator base value) := by
  intro rest
  have closes : Closes (')' :: rest) := closes_of_mem (by decide) rest
  have left := h.operand (ends_operator operator (v (')' :: ')' :: rest)))
  have right := takes_unary_of_member (h'.operand closes.toEnds)
  refine (takes_binary operator left right closes ?_).mono fun _ one =>
    one.imp fun _ => readAs_binary span
  rintro _ ys zs ⟨first, rfl, built⟩ sign operand
  exact ⟨first, ys ++ zs, rfl, built,
    Pair.of_single ys zs (single_of_leafOf sign fun _ _ _ => rfl) operand⟩

theorem Writes.assignVariable (h : Writes v value) (span : Span) {target : Identifier}
    (accepted : accepts .identifier target.name.toList = true) :
    Writes (fun tail => target.name.toList ++ '=' :: '(' :: v (')' :: tail))
      (.assignVariable span target value) := by
  intro rest
  have left := (takes_member_of_ends (takes_name target accepted (by decide) _)
    (ends_assignment ('(' :: v (')' :: ')' :: rest)))).mono
      fun _ one => one.imp fun _ => readAs_operand
  exact (takes_assignment left (h.listed ')' (by decide) rest) Pair.of_single).mono fun _ one =>
    one.imp fun _ => readAs_assignVariable span

theorem Writes.assignMember (h : Writes w base) (h' : Writes v value) (span targetSpan : Span)
    {property : Identifier} (accepted : accepts .identifierName property.name.toList = true) :
    Writes (fun tail => '(' :: w (')' :: '.' :: (property.name.toList ++
      '=' :: '(' :: v (')' :: tail)))) (.assignMember span targetSpan base property value) := by
  intro rest
  have left := h.property targetSpan accepted (by decide)
    (ends_assignment ('(' :: v (')' :: ')' :: rest)))
  exact (takes_assignment left (h'.listed ')' (by decide) rest) Pair.of_single).mono fun _ one =>
    one.imp fun _ => readAs_assignMember span targetSpan

end Operands

/-! ## Literals and keys -/

section Numerals

variable {numeral : Number → List Char}

theorem writes_literal (spells : Spells numeral) (span : Span) (value : Literal)
    (h : value.Spellable) :
    Writes (value.write numeral) (.literal span value) := by
  refine writes_of_primary fun rest => ?_
  cases value with
  | null => exact takes_null span rest
  | bool b => exact takes_boolean span b rest
  | str s =>
    have taken := takes_string s (')' :: rest)
    refine (takes_primary 4 taken rfl (fun _ none => nomatch none)).mono fun nodes one => ?_
    exact one.imp fun _ => readAs_string span
  | num x =>
    obtain ⟨accepted, spelled⟩ := spells x h
    have taken : grammar.Takes .free (.rule .numericLiteral) _ _ _ :=
      takes_word (by decide) (show ')' ∈ wordEnds by decide) accepted rest
    refine (takes_primary 3 taken rfl (fun _ none => nomatch none)).mono fun nodes leaf => ?_
    exact single_of_leafOf leaf (readAs_numeral span spelled)

/-- The forms of keys, in the order in which they are tried. -/
def keyForms : List Rule :=
  [.identifierName, .stringLiteral, .numericLiteral]

/-- A key of one of the forms.  They are told from each other by their first character. -/
theorem takes_keyForm (n : Nat) {form : Rule} {text rest : List Char} {P : List (Node Rule) → Prop}
    (taken : grammar.Takes .free (.rule form) text rest P) (here : keyForms[n]? = some form) :
    grammar.Takes .free
      (.oneOf (.rule .identifierName) [.rule .stringLiteral, .rule .numericLiteral]) text rest
      P := by
  have apart : ∀ n < keyForms.length, ∀ form ∈ keyForms[n]?, ∀ other ∈ keyForms.take n,
      isApart .free (.rule form) .free (.rule other) = true := by decide
  have lt : n < keyForms.length := (List.getElem?_eq_some_iff.mp here).1
  refine taken.oneOf n ?_ ?_
  · show (keyForms.map Pattern.rule)[n]? = _
    rw [List.getElem?_map, here]
    rfl
  · show ∀ b ∈ (keyForms.map Pattern.rule).take n, grammar.Refuses .free b text
    rw [← List.map_take]
    exact List.forall_mem_map.mpr fun other mem =>
      refuses_of_isApart taken (apart n lt form here other mem)

/-- The key of a property, before a colon. -/
theorem takes_key (spells : Spells numeral) (key : PropertyKey) (h : key.Spellable)
    (rest : List Char) :
    grammar.Takes .free
      (.oneOf (.rule .identifierName) [.rule .stringLiteral, .rule .numericLiteral])
      (key.write numeral (':' :: rest)) (':' :: rest) (Single (ReadAsKey key)) := by
  cases key with
  | name word =>
    have taken : grammar.Takes .free (.rule .identifierName) _ _ _ :=
      takes_word (by decide) (show ':' ∈ wordEnds by decide) h rest
    refine (takes_keyForm 0 taken rfl).mono fun nodes leaf => ?_
    exact single_of_leafOf leaf (readAsKey_name word)
  | str s =>
    refine (takes_keyForm 1 (takes_string s (':' :: rest)) rfl).mono fun nodes one => ?_
    exact one.imp fun _ => readAsKey_string
  | num x =>
    obtain ⟨accepted, spelled⟩ := spells x h
    have taken : grammar.Takes .free (.rule .numericLiteral) _ _ _ :=
      takes_word (by decide) (show ':' ∈ wordEnds by decide) accepted rest
    refine (takes_keyForm 2 taken rfl).mono fun nodes leaf => ?_
    exact single_of_leafOf leaf (readAsKey_numeral spelled)

/-- A property of an object literal as an item of a list. -/
theorem Writes.listed_property {v : List Char → List Char} {value : Expression}
    (h : Writes v value) (spells : Spells numeral) (span : Span) {key : PropertyKey}
    (spellable : key.Spellable) :
    Listed .propertyDefinition ReadAsProperty
      (fun tail => key.write numeral (':' :: '(' :: v (')' :: tail))) ⟨span, key, value⟩ := by
  intro c mem rest
  have parenthesis : grammar.Quiet .free ('(' :: v (')' :: c :: rest)) :=
    quiet_sign (by decide) _
  have right := (takes_sign ':' _).seq (S := Single (ReadAs value)) parenthesis
    (h.listed c mem rest) fun _ _ => append_of_nil_left
  have colon : grammar.Quiet .free (':' :: '(' :: v (')' :: c :: rest)) :=
    quiet_sign (by decide) _
  exact takes_node .propertyDefinition rfl
    ((takes_key spells key spellable _).seq colon right Pair.of_single)

/-! ## All expressions -/

mutual

/-- **The text of an expression is read as the expression.** -/
theorem writes (spells : Spells numeral) (e : Expression) (h : e.Spellable) :
    Writes (e.write numeral) e := by
  intro rest
  match e, h with
  | .literal span value, h => exact writes_literal spells span value h rest
  | .identifier name, h => exact writes_name name h rest
  | .object span properties, h =>
    exact writes_object span (listed_properties spells properties h) rest
  | .array span elements, h => exact writes_array span (listed_expressions spells elements h) rest
  | .member span base property, h => exact (writes spells base h.1).member span h.2 rest
  | .assignVariable span target value, h =>
    exact (writes spells value h.2).assignVariable span h.1 rest
  | .assignMember span targetSpan base property value, h =>
    obtain ⟨spellable, accepted, spellable'⟩ := h
    have target := writes spells base spellable
    exact target.assignMember (writes spells value spellable') span targetSpan accepted rest
  | .call span callee arguments, h =>
    exact (writes spells callee h.1).call span (listed_expressions spells arguments h.2) rest
  | .unary span operator operand, h => exact (writes spells operand h).unary span operator rest
  | .binary span operator left right, h =>
    exact (writes spells left h.1).binary (writes spells right h.2) span operator rest

theorem listed_expressions (spells : Spells numeral) (es : List Expression) (h : SpellableAll es) :
    List.Forall₂ (Listed .expression ReadAs) (expressionTexts numeral es) es := by
  match es, h with
  | [], _ => exact .nil
  | e :: rest, h => exact .cons (writes spells e h.1).listed (listed_expressions spells rest h.2)

theorem listed_properties (spells : Spells numeral) (ps : List (Property Expression))
    (h : SpellableProperties ps) :
    List.Forall₂ (Listed .propertyDefinition ReadAsProperty) (propertyTexts numeral ps)
      ps := by
  match ps, h with
  | [], _ => exact .nil
  | ⟨span, key, value⟩ :: rest, ⟨spellable, valueSpellable, others⟩ =>
    exact .cons ((writes spells value valueSpellable).listed_property spells span spellable)
      (listed_properties spells rest others)

end

end Numerals

/-! ## Scripts -/

/-- The node of a script that is a single expression. -/
def IsExpressionScript (e : Expression) : Node Rule → Prop :=
  NodeOf .script (Pair (NodeOf .expressionStatement (Single (ReadAs e)))
    (NodeOf .endOfInput (· = [])))

section Scripts

variable {w : List Char → List Char} {e : Expression}

/-- The forms of statements that are tried before an expression. -/
def statementForms : List Rule :=
  [.functionDeclaration, .variableStatement, .ifStatement, .whileStatement, .forStatement,
    .returnStatement, .blockStatement, .emptyStatement]

/-- A statement that is an expression in parentheses, at the end of a text. -/
theorem Writes.statement (h : Writes w e) :
    grammar.Takes .free (.rule .statement) ('(' :: w [')', ';']) []
      (Single (NodeOf .expressionStatement (Single (ReadAs e)))) := by
  have semicolon : grammar.Takes .free (.rule .smartSemicolon) [';'] [] (· = []) :=
    takes_silent rfl (takes_sign ';' []).optional
  have taken := takes_node .expressionStatement rfl ((h.listed ';' (by decide) []).seq
    (S := Single (ReadAs e)) (closes_of_mem (by decide) []).quiet semicolon
      fun _ _ => append_of_nil_right)
  have others : ∀ form ∈ statementForms, avoids .free (.rule form) (some '(') = true := by decide
  refine takes_silent rfl (taken.oneOf 8 rfl ?_)
  show ∀ b ∈ statementForms.map Pattern.rule, _
  exact List.forall_mem_map.mpr fun form mem => refuses_at (others form mem) _

/-- A statement as a whole script. -/
theorem exists_script_of_statement {text : List Char} {P Q : List (Node Rule) → Prop}
    (statement : grammar.Takes .free (.rule .statement) text [] P)
    (quiet : grammar.Quiet .free text)
    (join : ∀ xs ys, P xs → Single (NodeOf .endOfInput (· = [])) ys → Q (xs ++ ys)) :
    ∃ node stop, NodeOf .script Q node ∧
      grammar.Gives .free (.rule .script) ⟨0, text⟩ (.matched [node] ⟨stop, []⟩) := by
  have done : grammar.Refuses .free (.rule .statement) [] := refuses_end (by decide)
  have statements := statement.many (S := P) (done.takesMore quiet_end)
    fun _ _ => append_of_nil_right
  have ending : grammar.Takes .free (.rule .endOfInput) [] [] _ :=
    takes_node .endOfInput rfl Grammar.takes_atEnd
  obtain ⟨ks, stop, known, gives⟩ := statements.seq quiet_end ending join 0
  exact ⟨_, stop, ⟨_, _, _, ks, rfl, known⟩,
    Grammar.Gives.rule ((Grammar.gives_atStart _).seq (quiet 0) gives)⟩

/-- An expression in parentheses as a whole script. -/
theorem Writes.script (h : Writes w e) :
    ∃ node stop, IsExpressionScript e node ∧
      grammar.Gives .free (.rule .script) ⟨0, '(' :: w [')', ';']⟩
        (.matched [node] ⟨stop, []⟩) :=
  exists_script_of_statement h.statement (quiet_sign (by decide) _) Pair.of_single

theorem stopsAt_buildStatements_of_readAs {nodes : List (Node Rule)}
    (h : Pair (NodeOf .expressionStatement (Single (ReadAs e))) (NodeOf .endOfInput (· = []))
      nodes) :
    (buildStatements nodes).StopsAt [] fun body =>
      ∃ span e', body = [.expression span e'] ∧ e'.unplaced = e.unplaced := by
  obtain ⟨_, _, rfl, ⟨a, b, _, _, rfl, inner, rfl, built⟩, ⟨_, _, _, _, rfl, -⟩⟩ := h
  rw [buildStatements, buildStatement, bind_assoc]
  · refine built.bind_nil fun e' same => ?_
    rw [pure_bind, buildStatements, buildStatements]
    exact .pure ⟨⟨a, b⟩, e', rfl, same⟩
  · rintro _ _ _ _ ⟨⟩

/-- A script that is a single expression is built as such. -/
theorem ofNode_of_isExpressionScript {node : Node Rule} (h : IsExpressionScript e node) :
    ∃ program span e', Program.ofNode node = .ok program ∧
      program.body = [.expression span e'] ∧ e'.unplaced = e.unplaced := by
  obtain ⟨a, b, taken, children, rfl, each⟩ := h
  obtain ⟨body, functions, ran, span, e', eq, same⟩ := stopsAt_buildStatements_of_readAs each #[]
  have run : Program.ofNode (.mk .script a b taken children) =
      (buildStatements children #[] >>= fun built => .ok ⟨built.1, built.2⟩) := rfl
  rw [run, ran]
  exact ⟨_, span, e', rfl, eq, same⟩

end Scripts

theorem parseScript_of_gives {text : List Char} {node : Node Rule} {stop : Place}
    {program : Program}
    (gives : grammar.Gives .free (.rule .script) ⟨0, text⟩ (.matched [node] stop))
    (built : Program.ofNode node = .ok program) :
    parseScript (String.ofList text) = .ok program := by
  have read : (grammar.read .script (String.ofList text).toList).1 = .matched [node] stop := by
    rw [String.toList_ofList]
    exact (ranked.gives_read .script text).2.unique gives
  rw [parseScript_of_read read, built]
  rfl

/-- **Every expression can be written down.**  There is a script that is read as a single statement,
which is the given expression up to stretches of source. -/
theorem parseScript_expresses (e : Expression) (h : e.Spellable) :
    ∃ source program span e', parseScript source = .ok program ∧
      program.body = [.expression span e'] ∧ e'.unplaced = e.unplaced := by
  obtain ⟨numeral, spells⟩ := exists_spells
  obtain ⟨node, stop, script, gives⟩ := (writes spells e h).script
  obtain ⟨program, span, e', built, body, same⟩ := ofNode_of_isExpressionScript script
  exact ⟨String.ofList ('(' :: e.write numeral [')', ';']), program, span, e',
    parseScript_of_gives gives built, body, same⟩

/-- An expression of many forms, with names that begin as reserved words do, reserved words as names
of properties, and a string with a quotation mark, a backslash and the end of a line in it. -/
def trickyExpression : Expression :=
  let here : Span := ⟨0, 0⟩
  let functional : Expression := .identifier ⟨"functional", here⟩
  let half : Expression := .literal here (.num ⟨0x3FE0000000000000⟩)
  .assignMember here here (.identifier ⟨"nullable", here⟩) ⟨"if", here⟩
    (.call here (.member here functional ⟨"return", here⟩)
      [.object here [⟨here, .str "\"\\\n", .unary here .minus half⟩,
          ⟨here, .num ⟨0x406FE00000000000⟩, .literal here .null⟩,
          ⟨here, .name "null", .array here []⟩],
        .binary here .looselyEqual (.binary here .divide functional half)
          (.assignVariable here ⟨"$", here⟩ (.literal here (.bool false)))])

/-- One half is spelled `.5` here, and the key 255 in hexadecimal digits. -/
theorem trickyExpression_is_expressed :
    trickyExpression.Spellable ∧ ∃ source program span e', parseScript source = .ok program ∧
      program.body = [.expression span e'] ∧ e'.unplaced = trickyExpression.unplaced := by
  have half : Number.IsSpelled ⟨0x3FE0000000000000⟩ :=
    ⟨".5".toList, by decide +kernel, by decide +kernel⟩
  have hex : Number.IsSpelled ⟨0x406FE00000000000⟩ :=
    ⟨"0xff".toList, by decide +kernel, by decide +kernel⟩
  have nullable : accepts .identifier "nullable".toList = true := by decide +kernel
  have functional : accepts .identifier "functional".toList = true := by decide +kernel
  have dollar : accepts .identifier "$".toList = true := by decide +kernel
  have reserved : ∀ w ∈ ["if", "return", "null"], accepts .identifierName w.toList = true := by
    decide +kernel
  have spellable : trickyExpression.Spellable :=
    ⟨nullable, reserved "if" (by decide), ⟨functional, reserved "return" (by decide)⟩,
      ⟨trivial, half, hex, trivial, reserved "null" (by decide), trivial, trivial⟩,
      ⟨⟨functional, half⟩, dollar, trivial⟩, trivial⟩
  exact ⟨spellable, parseScript_expresses trickyExpression spellable⟩

end ScriptTrace
