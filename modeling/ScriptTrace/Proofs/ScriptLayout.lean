import ScriptTrace.Ast.Build
import ScriptTrace.Proofs.Derivations
import ScriptTrace.Proofs.Words

/-!
# The text between the statements of a script

A script is matched as statements with blanks and comments between them.  The node of a statement
takes exactly what the statement matched, so what lies outside of all of them was skipped.

`Text.Trivia` says what may be skipped, of a text and of what follows it: blank characters, comments
up to the end of a line, and comments up to the first closing mark.  What follows matters, since a
comment up to the end of a line is one only if the line ends there.  The match of what is skipped is
such a text (`trivia_of_matches`): a comment takes characters as long as the closing mark fails to
match, and it ends at a place where one more character fails to match.

* `Text.Comment`, `Text.Trivia`: comments, and texts of blanks and comments.
* `Text.Spaced`: a text of stretches with blanks and comments around them.
* `spaced_of_script`: the statements of a script.
-/

namespace ScriptTrace

open Peg

/-! ## Blanks and comments -/

namespace Text

/-- The characters that may stand between the words of a script. -/
def blanks : List Char :=
  [' ', '\t', '\r', '\n', '\uFEFF', '\u00A0']

/-- A comment, with the text that follows it. -/
inductive Comment : List Char → List Char → Prop
  /-- From two strokes to the end of the line. -/
  | line {body rest : List Char} (inside : ∀ c ∈ body, c ∉ lineEnds)
      (ends : ∀ c, rest.head? = some c → c ∈ lineEnds) : Comment ('/' :: '/' :: body) rest
  /-- From a stroke and a star to the first star and stroke. -/
  | block {body rest : List Char} (inside : ¬ ['*', '/'] <:+: body) :
      Comment ('/' :: '*' :: (body ++ ['*', '/'])) rest

/-- A text of blanks and comments, with the text that follows it. -/
inductive Trivia : List Char → List Char → Prop
  | nil (rest : List Char) : Trivia [] rest
  | blank {c : Char} {text rest : List Char} (mem : c ∈ blanks) (more : Trivia text rest) :
      Trivia (c :: text) rest
  | comment {first text rest : List Char} (isComment : Comment first (text ++ rest))
      (more : Trivia text rest) : Trivia (first ++ text) rest

theorem Trivia.append {text more rest : List Char} (first : Trivia text (more ++ rest))
    (second : Trivia more rest) : Trivia (text ++ more) rest := by
  generalize follows : more ++ rest = after at first
  induction first with
  | nil => exact second
  | blank mem _ ih => exact .blank mem (ih follows)
  | @comment first text after isComment _ ih =>
    rw [List.append_assoc]
    refine .comment ?_ (ih follows)
    rwa [List.append_assoc, follows]

/-- A text that begins at an offset is given stretches with blanks and comments around them. -/
inductive Spaced : Nat → List Char → List Span → Prop
  | last {offset : Nat} {gap : List Char} (trivia : Trivia gap []) : Spaced offset gap []
  | next {offset : Nat} {gap text rest : List Char} {span : Span} {spans : List Span}
      (trivia : Trivia gap (text ++ rest)) (start : span.start = offset + byteLength gap)
      (stop : span.stop = span.start + byteLength text) (further : Spaced span.stop rest spans) :
      Spaced offset (gap ++ (text ++ rest)) (span :: spans)

end Text

namespace Language

variable {mode : Mode} {p q : Place} {nodes : List (Node Rule)}

/-! ## One of several texts, or of several rules -/

theorem matches_oneOf_text {first : List Char} {others : List (List Char)}
    (h : grammar.Matches mode (.oneOf (.text first) (others.map .text)) p nodes q) :
    nodes = [] ∧ ∃ chars ∈ first :: others, p.Reaches chars q := by
  induction others generalizing first with
  | nil =>
    cases h with
    | text eaten => exact ⟨rfl, first, List.mem_cons_self, eaten⟩
  | cons next others ih =>
    cases h with
    | choiceFirst here =>
      cases here with
      | text eaten => exact ⟨rfl, first, List.mem_cons_self, eaten⟩
    | choiceSecond there =>
      obtain ⟨none, chars, mem, eaten⟩ := ih there
      exact ⟨none, chars, List.mem_cons_of_mem _ mem, eaten⟩

theorem matches_oneOf_rule {first : Rule} {others : List Rule}
    (h : grammar.Matches mode (.oneOf (.rule first) (others.map .rule)) p nodes q) :
    ∃ r ∈ first :: others, grammar.Matches mode (.rule r) p nodes q := by
  induction others generalizing first with
  | nil => exact ⟨first, List.mem_cons_self, h⟩
  | cons next others ih =>
    cases h with
    | choiceFirst here => exact ⟨first, List.mem_cons_self, here⟩
    | choiceSecond there =>
      obtain ⟨r, mem, here⟩ := ih there
      exact ⟨r, List.mem_cons_of_mem _ mem, here⟩

theorem takes_oneOf_char {c first : Char} {others : List Char} (mem : c ∈ first :: others)
    (rest : List Char) :
    grammar.Takes mode (.oneOf (.text [first]) (others.map fun d => .text [d])) (c :: rest) rest
      (· = []) := by
  induction others generalizing first with
  | nil =>
    obtain rfl := List.mem_singleton.mp mem
    exact Grammar.takes_text [c] rest
  | cons next others ih =>
    by_cases same : first = c
    · rw [same]
      exact (Grammar.takes_text [c] rest).choice _
    · have later := (List.mem_cons.mp mem).resolve_left fun eq => same eq.symm
      exact .choice_of_refuses (refuses_text_of_ne same rest) (ih later)

/-! ## Line ends -/

theorem takes_lineTerminator {c : Char} (mem : c ∈ Text.lineEnds) (rest : List Char) :
    grammar.Takes .atomic (.rule .lineTerminator) (c :: rest) rest (· = []) := by
  have taken : grammar.Takes .atomic (.oneOf (.text ['\n']) (Text.lineEnds.tail.map fun d =>
    .text [d])) (c :: rest) rest (· = []) := takes_oneOf_char mem rest
  exact .silent taken (by decide)

/-! ## Comments -/

/-- Any character, where a pattern fails. -/
def anyBut (stop : Pattern Rule) : Pattern Rule :=
  .seq (.absent stop) (.char .any)

theorem takes_anyBut {stop : Pattern Rule} {c : Char} {rest : List Char}
    (h : grammar.Refuses .atomic stop (c :: rest)) :
    grammar.Takes .atomic (anyBut stop) (c :: rest) rest (· = []) :=
  h.takes_absent.seq (quiet_atomic _) (Grammar.takes_char rfl rest) nil_append_nil

/-- Characters up to a place where a pattern matches or the text ends. -/
theorem matches_many_anyBut {stop : Pattern Rule}
    (h : grammar.Matches .atomic (.many (anyBut stop)) p nodes q) :
    nodes = [] ∧ grammar.Gives .atomic (anyBut stop) q .failed ∧ ∃ body, p.Reaches body q ∧
      ∀ before after, body = before ++ after → after ≠ [] →
        ∃ offset, grammar.Gives .atomic stop ⟨offset, after ++ q.rest⟩ .failed := by
  have tight : Mode.atomic ≠ .free := by decide
  refine Grammar.Matches.many_induction
    (P := fun p nodes q => nodes = [] ∧ grammar.Gives .atomic (anyBut stop) q .failed ∧
      ∃ body, p.Reaches body q ∧ ∀ before after, body = before ++ after → after ≠ [] →
        ∃ offset, grammar.Gives .atomic stop ⟨offset, after ++ q.rest⟩ .failed) tight ?_ ?_ h
  · intro p fails
    refine ⟨rfl, fails, [], .refl p, ?_⟩
    intro before after split nonempty
    exact absurd (List.append_eq_nil_iff.mp split.symm).2 nonempty
  · rintro p xs p₁ ys q item ⟨rfl, fails, body, reaches, each⟩
    obtain ⟨as, p', bs, first, second, rfl⟩ := item.seq_tight tight
    cases first with
    | absent absent =>
      cases second with
      | @char _ _ c _ _ _ eaten =>
        refine ⟨rfl, fails, c :: body, eaten.trans reaches, ?_⟩
        intro before after split nonempty
        cases before with
        | nil =>
          refine ⟨p.offset, ?_⟩
          have rest : p.rest = after ++ q.rest := by
            rw [← show c :: body = after from split]
            exact (eaten.trans reaches).rest_eq
          rwa [← rest]
        | cons d before =>
          obtain ⟨-, split⟩ := List.cons.inj split
          exact each before after split nonempty

/-- The match of a comment. -/
theorem comment_of_matches (h : grammar.Matches .atomic (.rule .comment) p nodes q) :
    nodes = [] ∧ ∃ text, p.Reaches text q ∧ Text.Comment text q.rest := by
  have tight : Mode.atomic ≠ .free := by decide
  cases h with
  | @rule _ _ _ _ nodes body =>
    change nodes = [] ∧ _
    change grammar.Matches .atomic (.choice
      (.seq (word "//") (.many (anyBut (.rule .lineTerminator))))
      (.seq (word "/*") (.seq (.many (anyBut (word "*/"))) (word "*/")))) p nodes q at body
    cases body with
    | choiceFirst line =>
      obtain ⟨xs, p₁, ys, opens, inner, rfl⟩ := line.seq_tight tight
      cases opens with
      | text opened =>
        obtain ⟨rfl, fails, body, reaches, each⟩ := matches_many_anyBut inner
        refine ⟨rfl, _, opened.trans reaches, .line ?_ ?_⟩
        · intro c mem ends
          obtain ⟨before, after, split⟩ := List.append_of_mem mem
          obtain ⟨offset, refused⟩ := each before (c :: after) split (List.cons_ne_nil _ _)
          obtain ⟨_, _, -, taken⟩ := takes_lineTerminator ends (after ++ q.rest) offset
          exact nomatch refused.unique taken
        · obtain ⟨offset, rest⟩ := q
          intro c head
          cases rest with
          | nil => exact nomatch head
          | cons d rest =>
            obtain rfl : d = c := Option.some.inj head
            by_cases ends : d ∈ Text.lineEnds
            · exact ends
            obtain ⟨_, _, -, taken⟩ := takes_anyBut (refuses_lineTerminator ends rest) offset
            exact nomatch fails.unique taken
    | choiceSecond block =>
      obtain ⟨xs, p₁, ys, opens, inner, rfl⟩ := block.seq_tight tight
      obtain ⟨as, p₂, bs, characters, closes, rfl⟩ := inner.seq_tight tight
      cases opens with
      | text opened =>
        cases closes with
        | text closed =>
          obtain ⟨rfl, -, body, reaches, each⟩ := matches_many_anyBut characters
          have whole := opened.trans (reaches.trans closed)
          refine ⟨rfl, _, whole, .block ?_⟩
          rintro ⟨before, after, split⟩
          rw [List.append_assoc] at split
          obtain ⟨offset, refused⟩ :=
            each before (['*', '/'] ++ after) split.symm (List.cons_ne_nil _ _)
          have mark : grammar.Takes .atomic (.text ['*', '/']) (['*', '/'] ++ (after ++ p₂.rest))
              (after ++ p₂.rest) (· = []) := Grammar.takes_text _ _
          obtain ⟨_, _, -, taken⟩ := mark offset
          exact nomatch refused.unique taken

/-- The match of what is skipped once. -/
theorem blank_of_matches (h : grammar.Matches .atomic blank p nodes q) :
    nodes = [] ∧ ∃ text, p.Reaches text q ∧
      ((∃ c ∈ Text.blanks, text = [c]) ∨ Text.Comment text q.rest) := by
  cases h with
  | choiceFirst space =>
    cases space with
    | @rule _ _ _ _ nodes body =>
      change grammar.Matches .atomic (.oneOf (.text [' ']) ([['\t'], ['\r'], ['\n'], ['\uFEFF'],
        ['\u00A0']].map .text)) p nodes q at body
      obtain ⟨rfl, chars, mem, eaten⟩ := matches_oneOf_text body
      exact ⟨rfl, chars, eaten, .inl (by simpa [Text.blanks] using mem)⟩
  | choiceSecond comment =>
    obtain ⟨rfl, text, eaten, isComment⟩ := comment_of_matches comment
    exact ⟨rfl, text, eaten, .inr isComment⟩

/-- **What is skipped is blanks and comments**, and leaves no nodes. -/
theorem trivia_of_matches (h : grammar.Matches .atomic grammar.trivia p nodes q) :
    nodes = [] ∧ ∃ text, p.Reaches text q ∧ Text.Trivia text q.rest := by
  refine Grammar.Matches.many_induction
    (P := fun p nodes q => nodes = [] ∧ ∃ text, p.Reaches text q ∧ Text.Trivia text q.rest)
    (by decide) ?_ ?_ h
  · intro p _
    exact ⟨rfl, [], .refl p, .nil _⟩
  · rintro p xs p₁ ys q item ⟨rfl, text, reaches, trivia⟩
    obtain ⟨rfl, first, eaten, isBlank⟩ := blank_of_matches item
    refine ⟨rfl, first ++ text, eaten.trans reaches, ?_⟩
    rcases isBlank with ⟨c, mem, rfl⟩ | isComment
    · exact .blank mem trivia
    · refine .comment ?_ trivia
      rwa [← reaches.rest_eq]

/-! ## Statements -/

/-- The node of a statement takes exactly what the statement matched. -/
theorem node_of_statement (h : grammar.Matches .free (.rule .statement) p nodes q) :
    ∃ r children, r ≠ .endOfInput ∧
      nodes = [.mk r p.offset q.offset (p.upTo q.offset) children] := by
  cases h with
  | @rule _ _ _ _ inner body =>
    change ∃ (r : Rule) (children : List (Node Rule)), r ≠ .endOfInput ∧ inner = _
    change grammar.Matches .free (.oneOf (.rule .functionDeclaration) ([.variableStatement,
      .ifStatement, .whileStatement, .forStatement, .returnStatement, .blockStatement,
      .emptyStatement, .expressionStatement].map .rule)) p inner q at body
    obtain ⟨r, mem, here⟩ := matches_oneOf_rule body
    have visible : ∀ r ∈ [Rule.functionDeclaration, .variableStatement, .ifStatement,
        .whileStatement, .forStatement, .returnStatement, .blockStatement, .emptyStatement,
        .expressionStatement], r ≠ .endOfInput ∧ (grammar.kind r).isVisible = true ∧
          (grammar.kind r).outer .free ≠ .atomic := by decide
    obtain ⟨ne, kept⟩ := visible r mem
    cases here with
    | @rule _ _ _ _ children _ => exact ⟨r, children, ne, by rw [Grammar.nodesOf, if_pos kept]⟩

/-- Statements, with what was skipped before the first of them and nothing but blanks and comments
after the last. -/
theorem spaced_of_statements (h : grammar.Matches .free (.many (.rule .statement)) p nodes q)
    (ends : Text.Trivia q.rest []) {start : Place} {gap : List Char} (before : start.Reaches gap p)
    (trivia : Text.Trivia gap p.rest) :
    (∀ node ∈ nodes, node.rule ≠ .endOfInput) ∧
      Text.Spaced start.offset start.rest (nodes.map nodeSpan) := by
  generalize repetition : Pattern.many (Pattern.rule Rule.statement) = pattern at h
  generalize isFree : Mode.free = mode at h
  induction h generalizing start gap with
  | manyNil _ =>
    refine ⟨List.forall_mem_nil _, ?_⟩
    rw [before.rest_eq]
    exact .last (.append (by rwa [List.append_nil]) ends)
  | @manyOne _ _ p q nodes item _ =>
    cases repetition
    cases isFree
    obtain ⟨r, children, ne, rfl⟩ := node_of_statement item
    obtain ⟨text, reaches⟩ := item.reaches
    refine ⟨List.forall_mem_singleton.mpr ne, ?_⟩
    rw [before.rest_eq, reaches.rest_eq]
    refine .next (by rwa [← reaches.rest_eq]) before.offset_eq reaches.offset_eq (.last ends)
  | @manyCons _ _ p p₁ p₂ q xs zs ys item skipped rest _ _ ih =>
    cases repetition
    cases isFree
    obtain ⟨rfl, gap', reaches', trivia'⟩ := trivia_of_matches skipped
    obtain ⟨further, spaced⟩ := ih ends reaches' trivia' rfl rfl
    obtain ⟨r, children, ne, rfl⟩ := node_of_statement item
    obtain ⟨text, reaches⟩ := item.reaches
    refine ⟨List.forall_mem_cons.mpr ⟨ne, further⟩, ?_⟩
    rw [before.rest_eq, reaches.rest_eq]
    exact .next (by rwa [← reaches.rest_eq]) before.offset_eq reaches.offset_eq spaced
  | _ => exact nomatch repetition

/-- **Outside of the statements of a script there are only blanks and comments.** -/
theorem spaced_of_script {source : List Char}
    (h : grammar.Matches .free (.rule .script) ⟨0, source⟩ nodes q) :
    ∃ stop text statements last, nodes = [.mk .script 0 stop text (statements ++ [last])] ∧
      last.rule = .endOfInput ∧ (∀ node ∈ statements, node.rule ≠ .endOfInput) ∧
      Text.Spaced 0 source (statements.map nodeSpan) := by
  cases h with
  | @rule _ _ _ _ children body =>
    change grammar.Matches .free (.seq .atStart (.seq (.many (.rule .statement))
      (.rule .endOfInput))) _ children q at body
    cases body with
    | @seq _ _ _ _ _ p₂ _ xs zs ys first skipped second =>
      cases first with
      | atStart _ =>
        obtain ⟨rfl, gap, reaches, trivia⟩ := trivia_of_matches skipped
        cases second with
        | @seq _ _ _ _ p₃ p₄ _ statements zs' ys' many skipped' ending =>
          obtain ⟨rfl, gap', reaches', trivia'⟩ := trivia_of_matches skipped'
          cases ending with
          | @rule _ _ _ _ inner final =>
            change grammar.Matches .free .atEnd p₄ inner q at final
            cases final with
            | atEnd ends =>
              have after : Text.Trivia p₃.rest [] := by
                rwa [reaches'.rest_eq, ends, List.append_nil, ← ends]
              obtain ⟨ne, spaced⟩ := spaced_of_statements many after reaches trivia
              exact ⟨_, _, statements, _, rfl, rfl, ne, spaced⟩

end Language

end ScriptTrace
