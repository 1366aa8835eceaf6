import ScriptTrace.Proofs.Operands

/-!
# How chains of operators are matched

A chain is an operand with operators and further operands after it, and with blanks before and after
the operators.  It is matched as one expression whose node is flat: the operators and the operands
stand in it side by side, in the order of the text (`chainNode`).

Three other ways to read the text have to be excluded.

* An expression is first tried as an assignment.  No operator begins as an assignment does.
* An operator could be read as the beginning of a longer one or as a shorter one.  No operator is
  tried after one that begins it, and what follows an operator is a blank or an operand, which
  begins with no character of an operator (`exists_after_operator`).
* A stroke could begin a comment.  For the same reason it does not (`solid_write`).

Blanks after an operand are skipped in search of a property or a call, and so the operand takes them
with it; the next operator is looked for behind them (`OperandEnds`).

* `Link`, `writeLinks`: chains.
* `takes_link`, `takes_chain`: how they are taken.
* `exists_script_of_chain`: a chain as a script.
-/

namespace ScriptTrace

open Peg Pattern ScriptTrace.Language

/-! ## Chains -/

/-- An operator with the operand after it, and blanks before and after the operator. -/
structure Link where
  before : List Char
  operator : BinaryOperator
  after : List Char
  operand : List Char
  blankBefore : Text.AllBlank before
  blankAfter : Text.AllBlank after
  isOperand : IsOperand operand

/-- An operator with the operand after it, before what follows. -/
def Link.write (link : Link) (tail : List Char) : List Char :=
  link.operator.symbol.toList ++ (link.after ++ (link.operand ++ tail))

/-- Operators with operands, in order, before what follows. -/
def writeLinks : List Link → List Char → List Char
  | [], tail => tail
  | link :: links, tail => link.before ++ link.write (writeLinks links tail)

/-- The blanks before the first operator. -/
def leadingBlanks : List Link → List Char
  | [] => []
  | link :: _ => link.before

/-- Operators with operands, from the first operator on. -/
def fromOperator : List Link → List Char → List Char
  | [], tail => tail
  | link :: links, tail => link.write (writeLinks links tail)

theorem writeLinks_eq (links : List Link) (tail : List Char) :
    writeLinks links tail = leadingBlanks links ++ fromOperator links tail := by
  cases links <;> rfl

namespace Language

variable {text gap rest : List Char} {nodes : List (Node Rule)}

/-! ## Solid texts -/

/-- A text that begins neither with a blank nor with a stroke before the mark of a comment. -/
theorem solid_of_head {c : Char} (noBlank : c ∉ Text.blanks)
    (noMark : c = '/' → ∀ d, text.head? = some d → d ≠ '/' ∧ d ≠ '*') : Text.Solid (c :: text) where
  noBlank d head := by
    rwa [← Option.some.inj head]
  noComment comment rest split isComment := by
    obtain ⟨mark, more, isMark, rfl⟩ := isComment.exists_eq
    obtain ⟨rfl, rfl⟩ := List.cons.inj split
    obtain ⟨noStroke, noStar⟩ := noMark rfl mark rfl
    exact absurd isMark (not_or.mpr ⟨noStroke, noStar⟩)

theorem quiet_of_solid (solid : Text.Solid text) : grammar.Quiet .free text :=
  Grammar.quiet_of_refuses trivia_eq (refuses_blank solid)

/-- After blanks, a sequence goes on where they end. -/
theorem takes_seq_after_blanks {a b : Pattern Rule} {P Q S : List (Node Rule) → Prop}
    {rest' : List Char} (first : grammar.Takes .free a text (gap ++ rest) P)
    (blank : Text.AllBlank gap) (solid : Text.Solid rest)
    (second : grammar.Takes .free b rest rest' Q) (join : ∀ xs ys, P xs → Q ys → S (xs ++ ys)) :
    grammar.Takes .free (.seq a b) text rest' S := by
  intro offset
  obtain ⟨xs, stop, hx, gives⟩ := first offset
  have skips :=
    Grammar.skips_of_trivia (gives_trivia (Text.trivia_of_allBlank blank rest) solid stop)
  obtain ⟨ys, stop', hy, gives'⟩ := second (stop + Text.byteLength gap)
  exact ⟨xs ++ ys, stop', join xs ys hx hy, gives.seq skips gives'⟩

/-! ## Operands in a chain -/

/-- Where an operand ends: after blanks there is nothing that belongs to it. -/
structure OperandEnds (gap rest : List Char) : Prop where
  blank : Text.AllBlank gap
  follows : Follows (gap ++ rest)
  solid : Text.Solid rest
  noSuffix : grammar.Refuses .free suffix rest
  noAssignment : grammar.Refuses .free (.rule .assignOperator) rest

/-- An operand as building looks at it. -/
def operandNode (nodes : List (Node Rule)) : Node Rule :=
  .mk .memberExpression 0 0 [] nodes

theorem looksLike_of_nodeOf {rule : Rule} (plain : rule.isSpelled = false)
    {children : List (Node Rule)} (h : Single (NodeOf rule (LooksLike children)) nodes) :
    LooksLike [.mk rule 0 0 [] children] nodes := by
  obtain ⟨_, rfl, a, b, taken, _, rfl, same⟩ := h
  simp only [LooksLike, outlines, outline, plain, same, Bool.false_eq_true, if_false]

theorem StandsFor.solid (h : StandsFor text nodes) (tail : List Char) :
    Text.Solid (text ++ tail) := by
  obtain ⟨c, more, rfl, plain⟩ := h.exists_eq_cons
  refine solid_of_head (mt mem_followers_of_blank plain) ?_
  rintro rfl
  exact absurd (by decide) plain

/-- An operand with the blanks after it. -/
theorem takes_operand (h : StandsFor text nodes) (ends : OperandEnds gap rest) :
    grammar.Takes .free (.rule .memberExpression) (text ++ (gap ++ rest)) rest
      (LooksLike [operandNode nodes]) := by
  have parts := takes_seq_after_blanks (S := LooksLike nodes) (h.primary _ ends.follows) ends.blank
    ends.solid ends.noSuffix.takes_many fun _ _ => append_of_nil_right
  exact (takes_node .memberExpression rfl parts).mono fun _ => looksLike_of_nodeOf rfl

/-! ## Links -/

theorem not_mem_operatorSigns_of_blank {c : Char} (blank : c ∈ Text.blanks) :
    c ∉ operatorSigns :=
  Text.not_mem_of_apart (by decide) blank

/-- What follows an operator does not go on as one: blanks, or an operand. -/
theorem exists_after_operator (link : Link) (h : StandsFor link.operand nodes) (tail : List Char) :
    ∃ c more, link.after ++ (link.operand ++ tail) = c :: more ∧ c ∉ operatorSigns := by
  cases after : link.after with
  | nil =>
    obtain ⟨c, more, eq, plain⟩ := h.exists_eq_cons
    rw [eq]
    exact ⟨c, more ++ tail, rfl, mt mem_followers_of_sign plain⟩
  | cons c more =>
    have blank := link.blankAfter c (after ▸ List.mem_cons_self)
    exact ⟨c, _, rfl, not_mem_operatorSigns_of_blank blank⟩

/-- A link may follow an operand. -/
theorem follows_link (link : Link) (tail : List Char) :
    Follows (link.before ++ link.write tail) := by
  intro c head
  cases before : link.before with
  | nil =>
    rw [before, List.nil_append, Link.write, List.head?_append_of_ne_nil] at head
    · have inside := List.mem_of_head? head
      exact mem_followers_of_sign
        (mem_operatorSigns_of_mem_toList (symbol_mem_binarySymbols _) inside)
    · cases link.operator <;> decide
  | cons d more =>
    rw [before] at head
    obtain rfl := Option.some.inj head
    exact mem_followers_of_blank (link.blankBefore d (before ▸ List.mem_cons_self))

theorem solid_write (link : Link) (h : StandsFor link.operand nodes) (tail : List Char) :
    Text.Solid (link.write tail) := by
  obtain ⟨c, more, eq, plain⟩ := exists_after_operator link h tail
  rw [Link.write, eq]
  cases link.operator with
  | divide =>
    refine solid_of_head (by decide) fun _ d head => ?_
    obtain rfl := Option.some.inj head
    constructor <;> rintro rfl <;> exact absurd (by decide) plain
  | _ => exact solid_of_head (by decide) fun same => absurd same (by decide)

/-- An operator is read as it is written, and the operand after it. -/
theorem takes_link (link : Link) (h : StandsFor link.operand nodes) (ends : OperandEnds gap rest) :
    grammar.Takes .free (.seq (.rule .binaryOperator) (.rule .unaryExpression))
      (link.write (gap ++ rest)) rest
      (LooksLike [.mk .binaryOperator 0 0 link.operator.symbol.toList [], operandNode nodes]) := by
  have sign : grammar.Takes .free (.rule .binaryOperator) (link.write (gap ++ rest))
      (link.after ++ (link.operand ++ (gap ++ rest)))
      (LooksLike [.mk .binaryOperator 0 0 link.operator.symbol.toList []]) := by
    obtain ⟨c, more, eq, plain⟩ := exists_after_operator link h (gap ++ rest)
    rw [Link.write, eq]
    have taken : grammar.Takes .free (.rule .binaryOperator) _ (c :: more) _ :=
      ranked.leaf (takes_operatorSymbol link.operator plain more) (by decide)
    refine taken.mono ?_
    rintro _ ⟨start, stop, _, rfl, rfl⟩
    rfl
  exact takes_seq_after_blanks sign link.blankAfter (h.solid _)
    (takes_unary_of_member (takes_operand h ends)) fun _ _ => outlines_append

section Chains

variable {stands : List Char → List (Node Rule)} {links : List Link} {fin : List Char}

/-- Operators and operands as building looks at them. -/
def linkNodes (stands : List Char → List (Node Rule)) (links : List Link) : List (Node Rule) :=
  links.flatMap fun link =>
    [.mk .binaryOperator 0 0 link.operator.symbol.toList [], operandNode (stands link.operand)]

theorem closes_of_isEnd (isEnd : fin = [] ∨ fin = [';']) : Closes fin := by
  rcases isEnd with rfl | rfl
  · exact {
      quiet := quiet_end
      noSuffix := refuses_end (by decide)
      noAssignment := refuses_end (by decide)
      noOperator := refuses_end (by decide) }
  · exact closes_of_mem (by decide) []

variable (each : ∀ link ∈ links, StandsFor link.operand (stands link.operand))
variable (isEnd : fin = [] ∨ fin = [';'])
include each isEnd

theorem operandEnds_links : OperandEnds (leadingBlanks links) (fromOperator links fin) := by
  cases links with
  | nil =>
    have closes := closes_of_isEnd isEnd
    refine ⟨List.forall_mem_nil _, ?_, ?_, closes.noSuffix, closes.noAssignment⟩
    · rcases isEnd with rfl | rfl
      · exact fun _ none => nomatch none
      · intro c head
        obtain rfl := Option.some.inj head
        decide
    · rcases isEnd with rfl | rfl
      · exact Text.solid_nil
      · exact solid_of_head (by decide) fun same => absurd same (by decide)
  | cons link links =>
    have own := each link List.mem_cons_self
    exact {
      blank := link.blankBefore
      follows := follows_link link _
      solid := solid_write link own _
      noSuffix := refuses_suffix_of_operator _ _
      noAssignment := refuses_assignOperator_of_operator _ _ }

theorem takesMore_links :
    grammar.TakesMore .free (.seq (.rule .binaryOperator) (.rule .unaryExpression))
      (fromOperator links fin) fin (LooksLike (linkNodes stands links)) := by
  induction links with
  | nil =>
    have closes := closes_of_isEnd isEnd
    intro offset
    obtain ⟨_, stop, rfl, gives⟩ :=
      (closes.noOperator.seq (.rule .unaryExpression)).takesMore closes.quiet offset
    exact ⟨[], stop, rfl, gives⟩
  | cons link links ih =>
    obtain ⟨own, others⟩ := List.forall_mem_cons.mp each
    have item := takes_link link own (operandEnds_links others isEnd)
    rw [← writeLinks_eq] at item
    exact item.takesMore (quiet_of_solid (solid_write link own _)) (ih others)
      fun _ _ => outlines_append

theorem takes_links :
    grammar.Takes .free (.many (.seq (.rule .binaryOperator) (.rule .unaryExpression)))
      (fromOperator links fin) fin (LooksLike (linkNodes stands links)) := by
  cases links with
  | nil =>
    have noOperator := (closes_of_isEnd isEnd).noOperator
    exact (noOperator.seq _).takes_many.mono fun _ none => none ▸ rfl
  | cons link links =>
    obtain ⟨own, others⟩ := List.forall_mem_cons.mp each
    have item := takes_link link own (operandEnds_links others isEnd)
    rw [← writeLinks_eq] at item
    exact item.many (takesMore_links others isEnd) fun _ _ => outlines_append

variable (h : StandsFor text nodes)
include h

/-- A chain as building looks at it. -/
def chainNode (stands : List Char → List (Node Rule)) (nodes : List (Node Rule))
    (links : List Link) : Node Rule :=
  .mk .binaryExpression 0 0 [] (operandNode nodes :: linkNodes stands links)

/-- **A chain is taken as one expression.** -/
theorem takes_chain :
    grammar.Takes .free (.rule .expression) (text ++ writeLinks links fin) fin
      (LooksLike [chainNode stands nodes links]) := by
  have ends := operandEnds_links each isEnd
  have quiet := quiet_of_solid ends.solid
  have operand := takes_operand h ends
  rw [← writeLinks_eq] at operand
  have assignment : grammar.Refuses .free (.rule .assignmentExpression) _ :=
    .rule (operand.seq_refuses quiet (ends.noAssignment.seq _))
  have chain := (takes_unary_of_member operand).seq
    (S := LooksLike (operandNode nodes :: linkNodes stands links)) quiet (takes_links each isEnd)
    fun _ _ => outlines_append
  have whole : grammar.Takes .free (.rule .expression) _ fin _ :=
    takes_silent rfl (.choice_of_refuses assignment (takes_node .binaryExpression rfl chain))
  exact whole.mono fun _ => looksLike_of_nodeOf rfl

/-- A chain as a statement. -/
theorem takes_chainStatement :
    grammar.Takes .free (.rule .statement) (text ++ writeLinks links fin) []
      (LooksLike [.mk .expressionStatement 0 0 [] [chainNode stands nodes links]]) := by
  have semicolon : grammar.Takes .free (.rule .smartSemicolon) fin [] (· = []) := by
    rcases isEnd with rfl | rfl
    · exact takes_silent rfl (Grammar.Refuses.takes_optional (refuses_end (by decide)))
    · exact takes_silent rfl (takes_sign ';' []).optional
  have taken := takes_node .expressionStatement rfl ((takes_chain each isEnd h).seq
    (S := LooksLike [chainNode stands nodes links]) (closes_of_isEnd isEnd).quiet semicolon
    fun _ _ => append_of_nil_right)
  have follows := (operandEnds_links each isEnd).follows
  rw [← writeLinks_eq] at follows
  refine takes_silent rfl ((taken.mono fun _ => looksLike_of_nodeOf rfl).oneOf 8 rfl ?_)
  show ∀ b ∈ statementForms.map Pattern.rule, _
  exact List.forall_mem_map.mpr (h.noForm _ follows)

/-- **A chain is matched as a script** of one statement. -/
theorem exists_script_of_chain :
    ∃ node stop, NodeOf .script (LooksLike
        [.mk .expressionStatement 0 0 [] [chainNode stands nodes links], .mk .endOfInput 0 0 [] []])
        node ∧
      grammar.Gives .free (.rule .script) ⟨0, text ++ writeLinks links fin⟩
        (.matched [node] ⟨stop, []⟩) := by
  refine exists_script_of_statement (takes_chainStatement each isEnd h)
    (quiet_of_solid (h.solid _)) fun xs ys first ending => ?_
  obtain ⟨_, rfl, a, b, taken, _, rfl, rfl⟩ := ending
  exact outlines_append first rfl

end Chains

end Language

end ScriptTrace
