import ScriptTrace.Ast.StringLiteral
import ScriptTrace.Language.Table
import ScriptTrace.Proofs.Following
import ScriptTrace.Proofs.Progress

/-!
# The words of the language

The grammar of the language is ranked, so every text has an answer, and most refusals can be read
off the first character of the text.  This file says so (`Language.ranked`,
`Language.refuses_of_avoids`), and then what the rules do that spell words.

## Names and numerals

Nothing is said here of how a name or a numeral is spelled.  A text that a rule accepts when it
stands alone is accepted as well before a character that the rule has no use for, such as a closing
parenthesis (`Language.takes_word`).

A name is no reserved word, and so every rule that asks for a reserved word refuses it
(`Language.refuses_keyword`).  The rule for names tries the reserved words in order and does not
come back to the later ones; this does no harm because no reserved word begins another.

## Strings

Every text can be written between two quotation marks of either kind, with a backslash before that
quotation mark, the backslash and the characters that end a line (`escapeIn`).

* `Language.profile`, `Language.ranked`: progress.
* `Language.accepts`: whether a rule accepts a whole text.
* `Language.takes_word`, `Language.refuses_keyword`: names and numerals.
* `unescape_escapeIn`, `Text.Quotable`, `Language.takes_stringLiteral`: strings.
-/

namespace ScriptTrace

open Peg Pattern

namespace Language

/-! ## Progress -/

/-- What is known of the rules. -/
def profile : Profile Rule where
  mayBeEmpty
    | .endOfInput | .script | .doubleStringCharacters | .singleStringCharacters | .smartSemicolon
    | .forInit | .forTest | .forUpdate => true
    | _ => false
  rank
    | .whitespace | .comment => 0
    | .identifier | .identifierName | .doubleStringCharacters | .singleStringCharacters
    | .functionExpression | .functionDeclaration | .prefixExpression | .variableStatement
    | .ifStatement | .whileStatement | .forStatement | .returnStatement => 3
    | .primaryExpression | .propertyDefinition | .variableDeclaration => 4
    | .memberExpression => 5
    | .assignmentExpression | .unaryExpression => 6
    | .binaryExpression => 7
    | .expression => 8
    | .expressionStatement | .forInit | .forTest | .forUpdate => 9
    | .statement => 10
    | .script => 11
    | _ => 2

/-- **Matching makes progress** in the grammar of the language. -/
theorem ranked : grammar.Ranked profile where
  two_le_length := by decide
  mayBeEmpty name := by cases name <;> decide
  mem_rules := Rule.mem_all
  rank_lt name := by cases name <;> decide
  descends name := by cases name <;> decide
  trivia := by decide
  two_le_rank name := by cases name <;> decide

/-- The characters that a match may begin with.  No rule calls further down than the highest
rank. -/
def heads (mode : Mode) (pattern : Pattern Rule) : List Head :=
  grammar.heads profile 12 mode pattern

/-- Whether a pattern is known to take a character. -/
def advances (pattern : Pattern Rule) : Bool :=
  pattern.descends profile Rule.all.length Rule.all.length && !pattern.mayBeEmpty profile

/-- Whether a pattern is known to refuse every text with a given first character, or the empty
text. -/
def avoids (mode : Mode) (pattern : Pattern Rule) (first : Option Char) : Bool :=
  advances pattern && first.all fun c => (heads mode pattern).all fun h => !h.contains c

/-- Whether a pattern is known to refuse every text of which another pattern takes a character. -/
def isApart (mode : Mode) (a : Pattern Rule) (mode' : Mode) (b : Pattern Rule) : Bool :=
  !a.mayBeEmpty profile && advances b &&
    (heads mode a).all fun h => (heads mode' b).all fun h' => h.isApart h'

variable {mode mode' : Mode} {a b : Pattern Rule} {text rest : List Char}
variable {P : List (Node Rule) → Prop}

theorem refuses_of_avoids {first : Option Char} (h : avoids mode b first = true)
    (begins : text.head? = first) : grammar.Refuses mode b text := by
  simp only [avoids, advances, Bool.and_eq_true, Bool.not_eq_true'] at h
  obtain ⟨⟨descends, nonempty⟩, outside⟩ := h
  refine ranked.refuses 12 descends nonempty fun c here head mem => ?_
  rw [begins] at here
  rw [show first = some c from here] at outside
  exact (Bool.not_eq_true' _).mp (List.all_eq_true.mp outside head mem)

theorem refuses_at {c : Char} (h : avoids mode b (some c) = true) (rest : List Char) :
    grammar.Refuses mode b (c :: rest) :=
  refuses_of_avoids h rfl

theorem refuses_end (h : avoids mode b none = true) : grammar.Refuses mode b [] :=
  refuses_of_avoids h rfl

theorem refuses_of_isApart (taken : grammar.Takes mode a text rest P)
    (h : isApart mode a mode' b = true) : grammar.Refuses mode' b text := by
  simp only [isApart, advances, Bool.and_eq_true, Bool.not_eq_true'] at h
  obtain ⟨⟨takes, descends, nonempty⟩, apart⟩ := h
  refine ranked.refuses_of_apart taken 12 takes (fun h mem h' mem' => ?_) descends nonempty
  exact List.all_eq_true.mp (List.all_eq_true.mp apart h mem) h' mem'

/-- What is skipped once. -/
def blank : Pattern Rule :=
  .choice (.rule .whitespace) (.rule .comment)

theorem trivia_eq : grammar.trivia = .many blank := rfl

/-- The signs that begin neither a blank nor a comment: all but the stroke. -/
def signs : List Char :=
  ['(', ')', '[', ']', '\x7b', '\x7d', '.', ',', ';', ':', '=', '!', '<', '>', '&', '|', '+', '-',
    '*', '%']

theorem quiet_sign {c : Char} (mem : c ∈ signs) (rest : List Char) :
    grammar.Quiet .free (c :: rest) := by
  have blanks : signs.all (fun c => avoids .atomic blank (some c)) = true := by decide
  exact Grammar.quiet_of_refuses trivia_eq (refuses_at (List.all_eq_true.mp blanks c mem) rest)

theorem quiet_end : grammar.Quiet .free [] :=
  Grammar.quiet_of_refuses trivia_eq (refuses_end (by decide))

/-- Rules that begin neither as a blank nor as a comment does. -/
def solidRules : List Rule :=
  [.identifierName, .expression, .propertyDefinition]

theorem quiet_of_takes {rule : Rule} (mem : rule ∈ solidRules)
    (taken : grammar.Takes .free (.rule rule) text rest P) : grammar.Quiet .free text := by
  have apart : ∀ rule ∈ solidRules, isApart .free (.rule rule) .atomic blank = true := by
    decide
  exact Grammar.quiet_of_refuses trivia_eq (refuses_of_isApart taken (apart rule mem))

/-! ## Words that stand alone -/

/-- Whether a rule accepts a whole text. -/
def accepts (rule : Rule) (text : List Char) : Bool :=
  match (grammar.read rule text).1 with
  | .matched _ q => q.rest.isEmpty
  | _ => false

theorem gives_of_accepts {rule : Rule} (h : accepts rule text = true) :
    ∃ nodes stop, grammar.Gives .free (.rule rule) ⟨0, text⟩ (.matched nodes ⟨stop, []⟩) := by
  obtain ⟨-, gives⟩ := ranked.gives_read rule text
  unfold accepts at h
  generalize (grammar.read rule text).1 = outcome at h gives
  cases outcome with
  | matched nodes q =>
    obtain ⟨stop, rest⟩ := q
    obtain rfl : rest = [] := List.isEmpty_iff.mp h
    exact ⟨nodes, stop, gives⟩
  | failed => exact nomatch h
  | exhausted => exact nomatch h

/-- Rules that spell words. -/
def wordRules : List Rule :=
  [.identifier, .identifierName, .numericLiteral, .booleanLiteral, .nullLiteral, .kwFunction]

/-- Characters that these rules have no use for. -/
def wordEnds : List Char :=
  [')', '=', ':']

theorem ignores_of_mem {rule : Rule} (mem : rule ∈ wordRules) {c : Char} (ends : c ∈ wordEnds) :
    (grammar.body rule).ignores c (grammar.ignores c 3) = true := by
  have all : wordRules.all (fun rule => wordEnds.all fun c =>
      (grammar.body rule).ignores c (grammar.ignores c 3)) = true := by decide
  exact List.all_eq_true.mp (List.all_eq_true.mp all rule mem) c ends

theorem kind_of_mem_wordRules : ∀ rule ∈ wordRules, grammar.kind rule = .atomic := by decide

/-- The node of a word. -/
def LeafOf (rule : Rule) (text : List Char) (nodes : List (Node Rule)) : Prop :=
  ∃ start stop children, nodes = [.mk rule start stop text children]

theorem takes_leaf {rule : Rule} {taken : List Char}
    (h : grammar.Takes ((grammar.kind rule).inner mode) (grammar.body rule) (taken ++ rest) rest P)
    (kept : (grammar.kind rule).isVisible = true ∧ (grammar.kind rule).outer mode ≠ .atomic) :
    grammar.Takes mode (.rule rule) (taken ++ rest) rest (LeafOf rule taken) := by
  refine (ranked.leaf h kept).mono fun nodes known => ?_
  obtain ⟨start, stop, children, eq, -⟩ := known
  exact ⟨start, stop, children, eq⟩

/-- **A word is taken whole** before a character that its rule has no use for. -/
theorem takes_word {rule : Rule} (mem : rule ∈ wordRules) {c : Char} (ends : c ∈ wordEnds)
    (h : accepts rule text = true) (tail : List Char) :
    grammar.Takes .free (.rule rule) (text ++ c :: tail) (c :: tail) (LeafOf rule text) := by
  have kind := kind_of_mem_wordRules rule mem
  obtain ⟨nodes, stop, gives⟩ := gives_of_accepts h
  obtain ⟨children, body⟩ := ranked.gives_body gives
  rw [kind] at body
  have taken := Grammar.takes_of_alone (ignores_of_mem mem ends) body tail
  refine takes_leaf (P := (· = children)) ?_ ?_
  · rw [kind]
    exact taken
  · rw [kind]
    decide

/-! ## Reserved words -/

/-- One of several words. -/
def oneOfWords (first : String) (others : List String) : Pattern Rule :=
  .oneOf (word first) (others.map word)

/-- The reserved words. -/
def reservedWords : List String :=
  ["var", "let", "const", "function", "if", "else", "while", "for", "return", "true", "false",
    "null"]

theorem body_reservedWord :
    grammar.body .reservedWord = keyword (oneOfWords "var" reservedWords.tail) := rfl

/-- No reserved word begins another. -/
theorem eq_of_isPrefix : ∀ w ∈ reservedWords, ∀ w' ∈ reservedWords,
    w.toList <+: w'.toList → w = w' := by decide

/-- At most one reserved word stands at a place. -/
theorem eq_of_eat? {w w' : String} (mem : w ∈ reservedWords) (mem' : w' ∈ reservedWords)
    {p q q' : Place} (here : p.eat? w.toList = some q) (here' : p.eat? w'.toList = some q') :
    w = w' := by
  have one : w.toList <+: p.rest := ⟨q.rest, (Place.eat?_eq_some_iff.mp here).1.symm⟩
  have other : w'.toList <+: p.rest := ⟨q'.rest, (Place.eat?_eq_some_iff.mp here').1.symm⟩
  rcases Nat.le_total w.toList.length w'.toList.length with le | le
  · exact eq_of_isPrefix w mem w' mem' (List.prefix_of_prefix_length_le one other le)
  · exact (eq_of_isPrefix w' mem' w mem (List.prefix_of_prefix_length_le other one le)).symm

theorem gives_word (mode : Mode) (w : String) (p : Place) :
    grammar.Gives mode (word w) p
      (match p.eat? w.toList with
      | some q => .matched [] q
      | none => .failed) :=
  Grammar.gives_text w.toList p

/-- A word that stands at a place is taken, if none of those that are tried before it does. -/
theorem gives_oneOfWords {first : String} {others : List String} {w : String}
    (mem : w ∈ first :: others) {p q : Place} (here : p.eat? w.toList = some q)
    (clear : ∀ v ∈ (first :: others).takeWhile (· != w), p.eat? v.toList = none) :
    grammar.Gives mode (oneOfWords first others) p (.matched [] q) := by
  induction others generalizing first with
  | nil =>
    have gives := gives_word mode w p
    rw [here] at gives
    obtain rfl := List.mem_singleton.mp mem
    exact gives
  | cons next others ih =>
    have gives := gives_word mode first p
    by_cases same : first = w
    · rw [same, here] at gives
      rw [same]
      exact gives.choice _
    · rw [List.takeWhile_cons, if_pos (bne_iff_ne.mpr same)] at clear
      obtain ⟨now, further⟩ := List.forall_mem_cons.mp clear
      rw [now] at gives
      have later := (List.mem_cons.mp mem).resolve_left fun eq => same eq.symm
      exact gives.choice_of_failed (ih later further)

/-- The reserved word that stands at a place is taken. -/
theorem gives_oneOfWords_of_reserved {first : String} {others : List String}
    (reserved : first :: others ⊆ reservedWords) {w : String} (mem : w ∈ first :: others)
    {p q : Place} (here : p.eat? w.toList = some q) :
    grammar.Gives mode (oneOfWords first others) p (.matched [] q) := by
  refine gives_oneOfWords mem here fun v before => ?_
  have ne : v ≠ w := bne_iff_ne.mp (List.all_eq_true.mp List.all_takeWhile v before)
  cases eaten : p.eat? v.toList with
  | none => rfl
  | some q' =>
    have listed := (List.takeWhile_sublist _).subset before
    exact absurd (eq_of_eat? (reserved listed) (reserved mem) eaten here) ne

theorem gives_oneOfWords_failed {first : String} {others : List String} {p : Place}
    (absent : ∀ w ∈ first :: others, p.eat? w.toList = none) :
    grammar.Gives mode (oneOfWords first others) p .failed := by
  induction others generalizing first with
  | nil =>
    have gives := gives_word mode first p
    rwa [absent first List.mem_cons_self] at gives
  | cons next others ih =>
    have gives := gives_word mode first p
    rw [absent first List.mem_cons_self] at gives
    exact gives.choice_of_failed (ih fun w hw => absent w (List.mem_cons_of_mem _ hw))

/-- **Where no reserved word stands, a rule for some of them fails.** -/
theorem gives_keyword_failed {p : Place} (h : grammar.Gives .atomic (.rule .reservedWord) p .failed)
    {first : String} {others : List String} (reserved : first :: others ⊆ reservedWords) :
    grammar.Gives .atomic (keyword (oneOfWords first others)) p .failed := by
  by_cases found : ∃ w ∈ first :: others, ∃ q, p.eat? w.toList = some q
  · -- the word is the beginning of a longer one, and this is all that either rule looks at
    obtain ⟨w, mem, q, here⟩ := found
    have all := ranked.gives_body_failed h
    rw [body_reservedWord] at all
    obtain ⟨outcome, -, after⟩ :=
      ranked.exists_gives (show (Pattern.absent (.rule Rule.identifierPart)).descends profile
        Rule.all.length Rule.all.length = true by decide) .atomic q
    have skips : grammar.Skips .atomic q q := Grammar.skips_of_ne_free (by decide) q
    have some := (gives_oneOfWords_of_reserved reserved mem here).seq skips after
    have any :=
      (gives_oneOfWords_of_reserved (List.Subset.refl _) (reserved mem) here).seq skips after
    rwa [any.unique all] at some
  · refine (gives_oneOfWords_failed fun w mem => ?_).seq_failed _
    cases eaten : p.eat? w.toList with
    | none => rfl
    | some q => exact absurd ⟨w, mem, q, eaten⟩ found

/-- A name is no reserved word. -/
theorem gives_reservedWord_failed {name : List Char} (h : accepts .identifier name = true) :
    grammar.Gives .atomic (.rule .reservedWord) ⟨0, name⟩ .failed := by
  obtain ⟨nodes, stop, gives⟩ := gives_of_accepts h
  obtain ⟨children, body⟩ := ranked.gives_body gives
  obtain ⟨outcome, settled, reserved⟩ :=
    ranked.exists_gives (show (Pattern.rule Rule.reservedWord).descends profile
      Rule.all.length Rule.all.length = true by decide) .atomic ⟨0, name⟩
  cases outcome with
  | exhausted => exact absurd rfl settled
  | failed => exact reserved
  | matched nodes q => exact nomatch (reserved.absent_failed.seq_failed _).unique body

/-- A rule for reserved words refuses a name. -/
theorem refuses_keyword {name : List Char} (h : accepts .identifier name = true) {rule : Rule}
    (mem : rule ∈ wordRules) {first : String} {others : List String}
    (body : grammar.body rule = keyword (oneOfWords first others))
    (reserved : first :: others ⊆ reservedWords) {c : Char} (ends : c ∈ wordEnds)
    (tail : List Char) : grammar.Refuses .free (.rule rule) (name ++ c :: tail) := by
  have failed := gives_keyword_failed (gives_reservedWord_failed h) reserved
  rw [← body] at failed
  have refused := Grammar.refuses_of_alone (ignores_of_mem mem ends) failed tail
  refine .rule ?_
  rw [kind_of_mem_wordRules rule mem]
  exact refused

end Language

/-! ## Strings -/

/-- The characters that end a line. -/
def Text.lineEnds : List Char :=
  ['\n', '\r', '\u2028', '\u2029']

/-- The characters that cannot stand between two quotation marks of a kind without a backslash
before them. -/
def specials (quote : Char) : List Char :=
  quote :: '\\' :: Text.lineEnds

theorem quote_mem_specials (quote : Char) : quote ∈ specials quote :=
  List.mem_cons_self

theorem backslash_mem_specials (quote : Char) : '\\' ∈ specials quote :=
  List.mem_cons_of_mem _ List.mem_cons_self

theorem mem_specials_of_mem_lineEnds {c : Char} (quote : Char) (mem : c ∈ Text.lineEnds) :
    c ∈ specials quote :=
  List.mem_cons_of_mem _ (List.mem_cons_of_mem _ mem)

theorem ne_backslash_of_notMem_specials {quote c : Char} (plain : c ∉ specials quote) :
    c ≠ '\\' := by
  rintro rfl
  exact plain (backslash_mem_specials quote)

/-- A text as it is written between two quotation marks of a kind. -/
def escapeIn (quote : Char) (cs : List Char) : List Char :=
  cs.flatMap fun c => if c ∈ specials quote then ['\\', c] else [c]

theorem escapeIn_cons (quote c : Char) (cs : List Char) :
    escapeIn quote (c :: cs) =
      if c ∈ specials quote then '\\' :: c :: escapeIn quote cs else c :: escapeIn quote cs := by
  rw [escapeIn, List.flatMap_cons]
  split <;> rfl

theorem unescapeChar_of_mem_specials {quote c : Char} (isQuote : quote = '"' ∨ quote = '\'')
    (mem : c ∈ specials quote) : unescapeChar c = c := by
  simp only [specials, Text.lineEnds, List.mem_cons, List.not_mem_nil, or_false] at mem
  rcases mem with rfl | rfl | rfl | rfl | rfl | rfl
  · rcases isQuote with rfl | rfl <;> decide
  all_goals decide

theorem unescape_cons_of_ne {c : Char} (ne : c ≠ '\\') (cs : List Char) :
    unescape (c :: cs) = c :: unescape cs := by
  rw [unescape]
  · rintro rfl
    exact absurd rfl ne
  · exact fun _ _ same => absurd same ne

/-- **What is written between two quotation marks is read back.** -/
theorem unescape_escapeIn {quote : Char} (isQuote : quote = '"' ∨ quote = '\'') (cs : List Char) :
    unescape (escapeIn quote cs) = cs := by
  induction cs with
  | nil => rfl
  | cons c cs ih =>
    rw [escapeIn_cons]
    split
    · rename_i special
      rw [unescape, ih, unescapeChar_of_mem_specials isQuote special]
    · rename_i plain
      rw [unescape_cons_of_ne (ne_backslash_of_notMem_specials plain), ih]

namespace Language

variable {mode : Mode} {rest : List Char}

/-- Two parts without nodes have no nodes. -/
theorem nil_append_nil (xs ys : List (Node Rule)) (hx : xs = []) (hy : ys = []) : xs ++ ys = [] :=
  List.append_eq_nil_iff.mpr ⟨hx, hy⟩

theorem refuses_text_of_ne {c d : Char} (ne : d ≠ c) (rest : List Char) :
    grammar.Refuses mode (.text [d]) (c :: rest) := by
  refine Grammar.refuses_text ?_
  rintro ⟨more, same⟩
  exact ne (List.cons.inj same).1

theorem refuses_lineTerminator {c : Char} (outside : c ∉ Text.lineEnds) (rest : List Char) :
    grammar.Refuses .atomic (.rule .lineTerminator) (c :: rest) := by
  have refused : ∀ d ∈ Text.lineEnds, grammar.Refuses .atomic (.text [d]) (c :: rest) :=
    fun d mem => refuses_text_of_ne (ne_of_mem_of_not_mem mem outside) rest
  exact .rule (.choice (refused '\n' (by decide)) (.choice (refused '\r' (by decide))
    (.choice (refused '\u2028' (by decide)) (refused '\u2029' (by decide)))))

/-- What cannot stand between two quotation marks of a kind. -/
def unquotable (quote : Char) : Pattern Rule :=
  .oneOf (.text [quote]) [word "\\", .rule .lineTerminator]

/-- One character of a string literal. -/
def stringCharacter (quote : Char) : Pattern Rule :=
  .choice (.seq (.absent (unquotable quote)) (.char .any)) (.rule .escapeSequence)

theorem quiet_atomic (text : List Char) : grammar.Quiet .atomic text :=
  Grammar.quiet_of_ne_free (by decide) text

variable {quote : Char}

theorem refuses_unquotable {c : Char} (plain : c ∉ specials quote) (rest : List Char) :
    grammar.Refuses .atomic (unquotable quote) (c :: rest) := by
  have no : ∀ d ∈ specials quote, grammar.Refuses .atomic (.text [d]) (c :: rest) :=
    fun d mem => refuses_text_of_ne (ne_of_mem_of_not_mem mem plain) rest
  have ends : grammar.Refuses .atomic (.rule .lineTerminator) (c :: rest) :=
    refuses_lineTerminator (fun mem => plain (mem_specials_of_mem_lineEnds quote mem)) rest
  exact .choice (no quote (quote_mem_specials quote))
    (.choice (no '\\' (backslash_mem_specials quote)) ends)

theorem takes_plainCharacter {c : Char} (plain : c ∉ specials quote) (rest : List Char) :
    grammar.Takes .atomic (stringCharacter quote) (c :: rest) rest (· = []) := by
  refine .choice ?_ _
  exact (refuses_unquotable plain rest).takes_absent.seq (quiet_atomic _)
    (Grammar.takes_char rfl rest) nil_append_nil

theorem takes_escapedCharacter (ne : quote ≠ '\\') (c : Char) (rest : List Char) :
    grammar.Takes .atomic (stringCharacter quote) ('\\' :: c :: rest) rest (· = []) := by
  have backslash : grammar.Takes .atomic (word "\\") ('\\' :: c :: rest) (c :: rest) (· = []) :=
    Grammar.takes_text ['\\'] (c :: rest)
  have special :
      grammar.Takes .atomic (unquotable quote) ('\\' :: c :: rest) (c :: rest) (· = []) :=
    .choice_of_refuses (refuses_text_of_ne ne _) (backslash.choice _)
  refine .choice_of_refuses (special.refuses_absent.seq _) (.silent ?_ (by decide))
  exact backslash.seq (quiet_atomic _) (Grammar.takes_char rfl rest) nil_append_nil

theorem refuses_stringCharacter (ne : quote ≠ '\\') (rest : List Char) :
    grammar.Refuses .atomic (stringCharacter quote) (quote :: rest) := by
  have special : grammar.Takes .atomic (unquotable quote) (quote :: rest) rest (· = []) :=
    (Grammar.takes_text [quote] rest).choice _
  refine .choice (special.refuses_absent.seq _) (.rule (.seq ?_ _))
  exact refuses_text_of_ne ne.symm rest

end Language

/-- What may stand between two quotation marks of a kind: characters other than the mark, the
backslash and the ends of lines, and any characters after a backslash. -/
inductive Text.Quotable (quote : Char) : List Char → Prop
  | nil : Quotable quote []
  | plain {c : Char} {text : List Char} (allowed : c ∉ specials quote)
      (more : Quotable quote text) : Quotable quote (c :: text)
  | escaped (c : Char) {text : List Char} (more : Quotable quote text) :
      Quotable quote ('\\' :: c :: text)

theorem quotable_escapeIn (quote : Char) (cs : List Char) :
    Text.Quotable quote (escapeIn quote cs) := by
  induction cs with
  | nil => exact .nil
  | cons c cs ih =>
    rw [escapeIn_cons]
    split
    · exact .escaped c ih
    · rename_i plain
      exact .plain plain ih

namespace Language

variable {quote : Char} {text : List Char}

/-- The characters of a string up to the quotation mark. -/
theorem takesMore_stringCharacter (ne : quote ≠ '\\') (quotable : Text.Quotable quote text)
    (rest : List Char) :
    grammar.TakesMore .atomic (stringCharacter quote) (text ++ quote :: rest) (quote :: rest)
      (· = []) := by
  induction quotable with
  | nil => exact (refuses_stringCharacter ne rest).takesMore (quiet_atomic _)
  | plain allowed _ ih =>
    exact (takes_plainCharacter allowed _).takesMore (quiet_atomic _) ih nil_append_nil
  | escaped c _ ih =>
    exact (takes_escapedCharacter ne c _).takesMore (quiet_atomic _) ih nil_append_nil

theorem takes_stringCharacters (ne : quote ≠ '\\') (quotable : Text.Quotable quote text)
    (rest : List Char) :
    grammar.Takes .atomic (.many (stringCharacter quote)) (text ++ quote :: rest) (quote :: rest)
      (· = []) :=
  (takesMore_stringCharacter ne quotable rest).takes_many (by decide)

/-- The rule for the characters between two quotation marks of a kind. -/
def charactersRule (quote : Char) : Rule :=
  if quote = '"' then .doubleStringCharacters else .singleStringCharacters

/-- The node of a string literal. -/
def QuotedOf (quote : Char) (text : List Char) (nodes : List (Node Rule)) : Prop :=
  ∃ start stop whole inner, nodes = [.mk .stringLiteral start stop whole inner] ∧
    LeafOf (charactersRule quote) text inner

/-- The text between two quotation marks, with the marks. -/
theorem takes_quoted (isQuote : quote = '"' ∨ quote = '\'') (quotable : Text.Quotable quote text)
    (rest : List Char) :
    grammar.Takes .compound
      (inOrder (.text [quote]) [.rule (charactersRule quote), .text [quote]])
      (quote :: (text ++ quote :: rest)) rest (LeafOf (charactersRule quote) text) := by
  have ne : quote ≠ '\\' := by
    rcases isQuote with rfl | rfl <;> decide
  have quiet : ∀ text, grammar.Quiet .compound text := Grammar.quiet_of_ne_free (by decide)
  have mark : ∀ rest, grammar.Takes .compound (.text [quote]) (quote :: rest) rest (· = []) :=
    Grammar.takes_text [quote]
  have characters : grammar.Takes .compound (.rule (charactersRule quote))
      (text ++ quote :: rest) (quote :: rest) (LeafOf (charactersRule quote) text) := by
    rcases isQuote with rfl | rfl
    · exact takes_leaf (takes_stringCharacters ne quotable rest) (by decide)
    · exact takes_leaf (takes_stringCharacters ne quotable rest) (by decide)
  have inside := characters.seq (S := LeafOf (charactersRule quote) text) (quiet _)
    (mark rest) (by rintro xs _ leaf rfl; rwa [List.append_nil])
  exact (mark _).seq (quiet _) inside (by rintro _ ys rfl leaf; exact leaf)

/-- **A string literal is taken whole**, whatever follows it. -/
theorem takes_stringLiteral (isQuote : quote = '"' ∨ quote = '\'')
    (quotable : Text.Quotable quote text) (rest : List Char) :
    grammar.Takes .free (.rule .stringLiteral) (quote :: (text ++ quote :: rest)) rest
      (QuotedOf quote text) := by
  have whole := takes_quoted isQuote quotable rest
  have body : grammar.Takes .compound (grammar.body .stringLiteral)
      (quote :: (text ++ quote :: rest)) rest (LeafOf (charactersRule quote) text) := by
    rcases isQuote with rfl | rfl
    · exact whole.choice _
    · exact .choice_of_refuses (.seq (refuses_text_of_ne (by decide) _) _) whole
  exact .node body (by decide)

end Language

end ScriptTrace
