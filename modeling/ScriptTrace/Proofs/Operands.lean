import ScriptTrace.Proofs.Parentheses
import ScriptTrace.Proofs.RoundTrip

/-!
# Operands before what follows them

An operand is a name, a literal, or an expression in parentheses.  In a chain of operands it is
followed by blanks, an operator or a semicolon, and it is matched there as it is when it stands
alone.

* Most words have no use for the characters that may follow.  The exception is a numeral, which may
  have a sign in its exponent; but a sign is tested only after the letter of an exponent, and a
  numeral does not end with this letter (`takes_numeral`).
* A name or a literal is tried as many other things before.  At most one reserved word stands at a
  place, and none where a name does, so the words that begin other statements are refused
  (`refuses_keyword_of_literal`).
* What stands in parentheses is matched before the closing one as it is at the end of a text
  (`takes_enclosed`).

* `IsOperand`, `Follows`: operands, and what may follow them.
* `StandsFor`: what an operand is matched as, and what it is not matched as.
* `exists_standsFor`: every operand is matched.
-/

namespace ScriptTrace

open Peg Pattern ScriptTrace.Language

namespace Language

variable {text rest : List Char}

/-- Nodes look alike if building looks at the same in both, up to the offsets. -/
abbrev LooksLike (nodes nodes' : List (Node Rule)) : Prop :=
  outlines (fun _ => 0) nodes = outlines (fun _ => 0) nodes'

/-! ## From a text that stands alone -/

section Alone

variable {a : Pattern Rule} {mode : Mode} {p q : Place} {nodes : List (Node Rule)} {c : Char}
variable {calls : Nat}

theorem takes_before (ignored : a.ignores c (grammar.ignores c calls) = true)
    (h : grammar.Evaluates (.pattern .atomic a) p (.matched nodes q)) (tail : List Char) :
    grammar.Takes .atomic a (p.rest ++ c :: tail) (q.rest ++ c :: tail) fun _ => True := by
  intro offset
  obtain ⟨_, sim, gives⟩ := Grammar.Gives.sim ignored h.gives (fun same => nomatch same) tail offset
  cases sim with
  | @matched _ _ q' after =>
    obtain ⟨stop', rest'⟩ := q'
    obtain rfl : rest' = q.rest ++ c :: tail := after
    exact ⟨nodes, stop', trivial, gives⟩

theorem refuses_before (ignored : a.ignores c (grammar.ignores c calls) = true)
    (h : grammar.Evaluates (.pattern .atomic a) p .failed) (tail : List Char) :
    grammar.Refuses .atomic a (p.rest ++ c :: tail) :=
  Grammar.refuses_of_alone ignored h.gives tail

/-- What a pattern does with a text does not depend on where the text stands. -/
theorem exists_gives_of_walks (walks : a.walks isPlaceless = true) {outcome : Outcome Rule}
    (h : grammar.Evaluates (.pattern mode a) ⟨0, text⟩ outcome) (offset : Nat) :
    ∃ outcome', grammar.Gives mode a ⟨offset, text⟩ outcome' ∧
      outcome.Alike (further offset) outcome' := by
  have steady : grammar.Steady (further offset) (.pattern mode a) :=
    (keeps_further offset).steady walks
  refine steady ?_ h
  show _ = Place.mk (0 + offset) text
  rw [Nat.zero_add]

theorem takes_alone (walks : a.walks isPlaceless = true)
    (h : grammar.Evaluates (.pattern mode a) ⟨0, text⟩ (.matched nodes q)) :
    grammar.Takes mode a text q.rest fun _ => True := by
  intro offset
  obtain ⟨_, gives, alike⟩ := exists_gives_of_walks walks h offset
  cases alike with
  | matched _ after =>
    obtain rfl := after
    exact ⟨_, _, trivial, gives⟩

theorem refuses_alone (walks : a.walks isPlaceless = true)
    (h : grammar.Evaluates (.pattern mode a) ⟨0, text⟩ .failed) : grammar.Refuses mode a text := by
  intro offset
  obtain ⟨_, gives, alike⟩ := exists_gives_of_walks walks h offset
  cases alike with
  | failed => exact gives

/-- The two parts of a sequence where no blanks are skipped. -/
theorem exists_of_seq_tight {a b : Pattern Rule}
    (h : grammar.Evaluates (.pattern .atomic (.seq a b)) p (.matched nodes q)) :
    ∃ xs r ys, grammar.Evaluates (.pattern .atomic a) p (.matched xs r) ∧
      grammar.Evaluates (.pattern .atomic b) r (.matched ys q) := by
  obtain ⟨xs, r, ys, first, second, -⟩ := h.exists_of_seq
  cases second with
  | nextTight _ item => exact ⟨xs, r, ys, first, item⟩

theorem takes_seq_tight {a b : Pattern Rule} {between : List Char}
    (first : grammar.Takes .atomic a text between fun _ => True)
    (second : grammar.Takes .atomic b between rest fun _ => True) :
    grammar.Takes .atomic (.seq a b) text rest fun _ => True :=
  first.seq (quiet_atomic _) second fun _ _ _ _ => trivial

/-- The pattern of a rule has an outcome, and only one. -/
theorem evaluates_body_of_gives {rule : Rule} {outcome : Outcome Rule}
    (h : grammar.Gives ((grammar.kind rule).inner mode) (grammar.body rule) p outcome) :
    grammar.Evaluates (.pattern ((grammar.kind rule).inner mode) (grammar.body rule)) p
      outcome := by
  obtain ⟨outcome', evaluates⟩ :=
    Grammar.exists_evaluates (ranked.acc_asks (p := p) (ranked.fits_body mode rule))
  rwa [Grammar.Gives.unique evaluates.gives h] at evaluates

end Alone

/-! ## What may follow an operand -/

/-- The characters that may follow an operand. -/
def followers : List Char :=
  ';' :: (operatorSigns ++ Text.blanks)

theorem mem_followers_of_sign {c : Char} (mem : c ∈ operatorSigns) : c ∈ followers :=
  List.mem_cons_of_mem _ (List.mem_append_left _ mem)

theorem mem_followers_of_blank {c : Char} (mem : c ∈ Text.blanks) : c ∈ followers :=
  List.mem_cons_of_mem _ (List.mem_append_right _ mem)

/-- What may follow an operand: nothing, or a text that begins with one of these characters. -/
def Follows (rest : List Char) : Prop :=
  ∀ c, rest.head? = some c → c ∈ followers

/-! ## Words -/

/-- The operands that are words, in the order in which they are tried. -/
def wordForms : List Rule :=
  [.numericLiteral, .booleanLiteral, .nullLiteral, .identifier]

theorem exists_evaluates_word {rule : Rule} (mem : rule ∈ wordForms)
    (h : accepts rule text = true) :
    ∃ nodes stop, grammar.Evaluates (.pattern .atomic (grammar.body rule)) ⟨0, text⟩
      (.matched nodes ⟨stop, []⟩) := by
  have kind : ∀ rule ∈ wordForms, (grammar.kind rule).inner .free = .atomic := by decide
  obtain ⟨nodes, stop, gives⟩ := gives_of_accepts h
  obtain ⟨children, body⟩ := ranked.gives_body gives
  have evaluates := evaluates_body_of_gives body
  rw [kind rule mem] at evaluates
  exact ⟨children, stop, evaluates⟩

/-- The signs of an exponent. -/
def exponentSigns : List Char :=
  ['+', '-']

/-- The sign of an exponent. -/
def signPattern : Pattern Rule :=
  .choice (word "+") (word "-")

/-- One or more digits. -/
def digitsPattern : Pattern Rule :=
  oneOrMore (.char .digit)

/-- A sign, if there is one, is taken also when more follows the digits after it. -/
theorem takes_sign_before {q₂ q₃ q : Place} {xs ys : List (Node Rule)}
    (sign : grammar.Evaluates (.pattern .atomic (.optional signPattern)) q₂ (.matched xs q₃))
    (digits : grammar.Evaluates (.pattern .atomic digitsPattern) q₃ (.matched ys q))
    (tail : List Char) :
    grammar.Takes .atomic (.optional signPattern) (q₂.rest ++ tail) (q₃.rest ++ tail)
      fun _ => True := by
  cases sign with
  | optional sign =>
    have one : grammar.Matches .atomic (.oneOf (.text ['+']) ([['-']].map .text)) q₂ xs q₃ :=
      sign.gives.matches
    obtain ⟨-, chars, mem, reaches⟩ := matches_oneOf_text one
    obtain ⟨c, inside, rfl⟩ : ∃ c ∈ ['+', '-'], chars = [c] := by
      rcases List.mem_cons.mp mem with rfl | mem
      · exact ⟨'+', by decide, rfl⟩
      · exact ⟨'-', by decide, List.mem_singleton.mp mem⟩
    rw [reaches.rest_eq]
    have taken : grammar.Takes .atomic (.oneOf (.text ['+']) (['-'].map fun d => .text [d]))
        (c :: (q₃.rest ++ tail)) (q₃.rest ++ tail) (· = []) := takes_oneOf_char inside _
    exact (Grammar.Takes.optional taken).mono fun _ _ => trivial
  | optionalNone _ =>
    obtain ⟨_, _, _, digit, -, -⟩ := Grammar.Evaluates.exists_of_seq
      (show grammar.Evaluates (.pattern .atomic (.seq (.char .digit) _)) _ _ from digits)
    cases digit with
    | @char _ _ offset d rest inside =>
      have no : ∀ e, CharClass.digit.contains e = false → grammar.Refuses .atomic (.text [e])
          (d :: (rest ++ tail)) := by
        intro e outside
        refine refuses_text_of_ne ?_ _
        rintro rfl
        exact nomatch outside.symm.trans inside
      have refused : grammar.Refuses .atomic signPattern (d :: (rest ++ tail)) :=
        .choice (no '+' (by decide)) (no '-' (by decide))
      exact refused.takes_optional.mono fun _ _ => trivial

/-- A numeral to the base sixteen. -/
def hexPattern : Pattern Rule :=
  .seq (.choice (word "0x") (word "0X")) (oneOrMore (.char .hexDigit))

/-- A decimal numeral up to its exponent. -/
def mantissaPattern : Pattern Rule :=
  .choice (.seq digitsPattern (.optional (.seq (word ".") (.many (.char .digit)))))
    (.seq (word ".") digitsPattern)

/-- The letter of an exponent. -/
def exponentMark : Pattern Rule :=
  .choice (word "e") (word "E")

/-- The exponent of a decimal numeral. -/
def exponentPattern : Pattern Rule :=
  .seq exponentMark (.seq (.optional signPattern) digitsPattern)

section Signs

variable {c : Char} (isSign : c ∈ exponentSigns)
include isSign

/-- Whether a pattern has no use for a sign can be computed for both signs. -/
theorem ignores_of_isSign {a : Pattern Rule}
    (all : exponentSigns.all (fun c => a.ignores c (grammar.ignores c 0)) = true) :
    a.ignores c (grammar.ignores c 0) = true :=
  List.all_eq_true.mp all c isSign

/-- Whether a pattern is refused at a sign can be computed for both signs. -/
theorem refuses_of_isSign {a : Pattern Rule}
    (all : exponentSigns.all (fun c => avoids .atomic a (some c)) = true) (tail : List Char) :
    grammar.Refuses .atomic a (c :: tail) :=
  refuses_at (List.all_eq_true.mp all c isSign) tail

/-- The sign of an exponent is tested only where an exponent has begun, and there digits follow. -/
theorem takes_exponent_before {p : Place} {stop : Nat} {nodes : List (Node Rule)}
    (h : grammar.Evaluates (.pattern .atomic (.optional exponentPattern)) p
      (.matched nodes ⟨stop, []⟩)) (tail : List Char) :
    grammar.Takes .atomic (.optional exponentPattern) (p.rest ++ c :: tail) (c :: tail)
      fun _ => True := by
  cases h with
  | optionalNone _ =>
    have refused := refuses_of_isSign isSign (a := exponentPattern) (by decide) tail
    exact refused.takes_optional.mono fun _ _ => trivial
  | optional exponent =>
    obtain ⟨_, _, _, mark, more⟩ := exists_of_seq_tight exponent
    obtain ⟨_, _, _, sign, digits⟩ := exists_of_seq_tight more
    have letter := takes_before (ignores_of_isSign isSign (by decide)) mark tail
    have signed := takes_sign_before sign digits (c :: tail)
    have last := takes_before (ignores_of_isSign isSign (by decide)) digits tail
    exact (takes_seq_tight letter (takes_seq_tight signed last)).optional

/-- **A numeral is taken whole before a sign.** -/
theorem takes_numeral (h : accepts .numericLiteral text = true) (tail : List Char) :
    grammar.Takes .atomic (grammar.body .numericLiteral) (text ++ c :: tail) (c :: tail)
      fun _ => True := by
  obtain ⟨nodes, stop, evaluates⟩ := exists_evaluates_word (by decide) h
  obtain ⟨_, q, _, number, ending⟩ := exists_of_seq_tight
    (show grammar.Evaluates (.pattern .atomic (.seq (.choice hexPattern (.seq mantissaPattern
      (.optional exponentPattern))) (.absent (.rule .identifierStart)))) _ _ from evaluates)
  cases ending with
  | absent _ =>
    have whole : grammar.Takes .atomic (.choice hexPattern (.seq mantissaPattern
        (.optional exponentPattern))) (text ++ c :: tail) (c :: tail) fun _ => True := by
      have noHex := ignores_of_isSign isSign (a := hexPattern) (by decide)
      cases number with
      | choice number => exact (takes_before noHex number tail).choice _
      | choiceFailed other number =>
        obtain ⟨_, _, _, mantissa, exponent⟩ := exists_of_seq_tight number
        have first := takes_before (ignores_of_isSign isSign (by decide)) mantissa tail
        have second := takes_exponent_before isSign exponent tail
        exact .choice_of_refuses (refuses_before noHex other tail) (takes_seq_tight first second)
    have ended := refuses_of_isSign isSign (a := .rule .identifierStart) (by decide) tail
    exact takes_seq_tight whole (ended.takes_absent.mono fun _ _ => trivial)

end Signs

theorem takes_body_of_word {rule : Rule} (mem : rule ∈ wordForms) (h : accepts rule text = true)
    (follows : Follows rest) :
    grammar.Takes .atomic (grammar.body rule) (text ++ rest) rest fun _ => True := by
  obtain ⟨nodes, stop, evaluates⟩ := exists_evaluates_word mem h
  cases rest with
  | nil =>
    have walks : ∀ rule ∈ wordForms, (grammar.body rule).walks isPlaceless = true := by decide
    rw [List.append_nil]
    exact takes_alone (walks rule mem) evaluates
  | cons c tail =>
    have sorted : wordForms.all (fun rule => followers.all fun c =>
        (rule == .numericLiteral && exponentSigns.contains c) ||
          (grammar.body rule).ignores c (grammar.ignores c 3)) = true := by decide
    have here := List.all_eq_true.mp (List.all_eq_true.mp sorted rule mem) c (follows c rfl)
    rcases Bool.or_eq_true_iff.mp here with numeral | ignored
    · obtain ⟨isNumeral, isSign⟩ := Bool.and_eq_true_iff.mp numeral
      obtain rfl := eq_of_beq isNumeral
      exact takes_numeral (List.contains_iff_mem.mp isSign) h tail
    · exact takes_before ignored evaluates tail

/-- **A word is taken whole** before what may follow it. -/
theorem takes_wordForm {rule : Rule} (mem : rule ∈ wordForms) (h : accepts rule text = true)
    (follows : Follows rest) :
    grammar.Takes .free (.rule rule) (text ++ rest) rest (LooksLike [.mk rule 0 0 text []]) := by
  have kinds : ∀ rule ∈ wordForms, (grammar.kind rule).inner .free = .atomic ∧
      ((grammar.kind rule).isVisible = true ∧ (grammar.kind rule).outer .free ≠ .atomic) := by
    decide
  -- a character that the rule has no use for shows that there are no nodes below
  have closed : wordForms.all (fun rule =>
      (grammar.body rule).ignores ')' (grammar.ignores ')' 3)) = true := by decide
  obtain ⟨inner, kept⟩ := kinds rule mem
  have body : grammar.Takes ((grammar.kind rule).inner .free) (grammar.body rule) (text ++ rest)
      rest (· = []) := by
    rw [inner]
    intro offset
    obtain ⟨nodes, stop, -, gives⟩ := takes_body_of_word mem h follows offset
    obtain ⟨none, -⟩ := gives.matches.of_ignores (List.all_eq_true.mp closed rule mem)
    exact ⟨nodes, stop, none, gives⟩
  refine (ranked.leaf body kept).mono ?_
  rintro _ ⟨start, stop, _, rfl, rfl⟩
  rfl

/-- A string literal is taken whole, whatever follows it. -/
theorem exists_takes_string (h : accepts .stringLiteral text = true) :
    ∃ nodes, ∀ rest,
      grammar.Takes .free (.rule .stringLiteral) (text ++ rest) rest (LooksLike nodes) := by
  obtain ⟨nodes, stop, gives⟩ := gives_of_accepts h
  refine ⟨nodes, fun rest offset => ?_⟩
  have continued : (Place.mk offset (text ++ rest)).rest = text ++ rest := rfl
  obtain ⟨nodes', ⟨stop', rest'⟩, gives', same, after⟩ := exists_gives_stringLiteral gives continued
  obtain rfl : rest' = rest := after
  exact ⟨nodes', stop', same, gives'⟩

/-! ## Reserved words -/

/-- A rule for a reserved word, or for one of several. -/
structure Keyword where
  rule : Rule
  first : String
  others : List String
  kind : grammar.kind rule = .atomic
  body : grammar.body rule = keyword (oneOfWords first others)
  reserved : first :: others ⊆ reservedWords

namespace Keyword

/-- The word that a function begins with. -/
def function : Keyword :=
  ⟨.kwFunction, "function", [], rfl, rfl, by decide⟩

/-- The words that a statement or a function begins with. -/
def openings : List Keyword :=
  [function, ⟨.variableKind, "var", ["let", "const"], rfl, rfl, by decide⟩,
    ⟨.kwIf, "if", [], rfl, rfl, by decide⟩, ⟨.kwWhile, "while", [], rfl, rfl, by decide⟩,
    ⟨.kwFor, "for", [], rfl, rfl, by decide⟩, ⟨.kwReturn, "return", [], rfl, rfl, by decide⟩]

/-- The words for the two truth values. -/
def boolean : Keyword :=
  ⟨.booleanLiteral, "true", ["false"], rfl, rfl, by decide⟩

/-- The word for nothing. -/
def null : Keyword :=
  ⟨.nullLiteral, "null", [], rfl, rfl, by decide⟩

/-- All words that a name could be taken for. -/
def all : List Keyword :=
  boolean :: null :: openings

/-- **No word is taken for a name**: a name is no reserved word, whatever may follow it. -/
theorem refuses_name {k : Keyword} (mem : k ∈ all) (h : accepts .identifier text = true)
    (follows : Follows rest) : grammar.Refuses .free (.rule k.rule) (text ++ rest) := by
  have failed := gives_keyword_failed (gives_reservedWord_failed h) k.reserved
  have inner : (grammar.kind k.rule).inner .atomic = .atomic := by rw [k.kind]; rfl
  rw [← k.body, ← inner] at failed
  have evaluates := evaluates_body_of_gives failed
  rw [inner] at evaluates
  refine .rule ?_
  rw [k.kind]
  cases rest with
  | nil =>
    have walks : ∀ k ∈ all, (grammar.body k.rule).walks isPlaceless = true := by decide
    rw [List.append_nil]
    exact refuses_alone (walks k mem) evaluates
  | cons c tail =>
    have ignored : all.all (fun k => followers.all fun c =>
        (grammar.body k.rule).ignores c (grammar.ignores c 3)) = true := by decide
    exact refuses_before
      (List.all_eq_true.mp (List.all_eq_true.mp ignored k mem) c (follows c rfl)) evaluates tail

/-- Where a word is taken, a rule for other words fails. -/
theorem refuses_of_takes {k k' : Keyword} {P : List (Node Rule) → Prop}
    (other : ∀ w ∈ k.first :: k.others, w ∉ k'.first :: k'.others)
    (taken : grammar.Takes .free (.rule k.rule) text rest P) :
    grammar.Refuses .free (.rule k'.rule) text := by
  refine .rule fun offset => ?_
  obtain ⟨nodes, stop, -, gives⟩ := taken offset
  obtain ⟨children, body⟩ := ranked.gives_body gives
  rw [k.kind, k.body] at body
  obtain ⟨xs, q, _, first, -, -⟩ := body.matches.seq_tight (by decide)
  have one : grammar.Matches .atomic (.oneOf (.text k.first.toList)
      ((k.others.map String.toList).map .text)) ⟨offset, text⟩ xs q := by
    rw [List.map_map]
    exact first
  obtain ⟨-, chars, mem, reaches⟩ := matches_oneOf_text one
  obtain ⟨w, listed, rfl⟩ : ∃ w ∈ k.first :: k.others, w.toList = chars :=
    List.mem_map.mp (show chars ∈ (k.first :: k.others).map String.toList from mem)
  rw [k'.kind, k'.body]
  refine (gives_oneOfWords_failed fun v mem' => ?_).seq_failed _
  cases eaten : Place.eat? ⟨offset, text⟩ v.toList with
  | none => rfl
  | some q' =>
    have here : Place.eat? ⟨offset, text⟩ w.toList = some q :=
      Place.eat?_eq_some_iff.mpr ⟨reaches.rest_eq, reaches.offset_eq⟩
    obtain rfl := eq_of_eat? (k.reserved listed) (k'.reserved mem') here eaten
    exact absurd mem' (other w listed)

end Keyword

/-! ## Operands -/

/-- The rules of names and literals. -/
def literalRules : List Rule :=
  [.identifier, .numericLiteral, .stringLiteral, .booleanLiteral, .nullLiteral]

/-- A name, a literal, or an expression in parentheses. -/
inductive IsOperand : List Char → Prop
  | word {rule : Rule} {text : List Char} (mem : rule ∈ literalRules)
      (accepted : accepts rule text = true) : IsOperand text
  | parentheses {inner : List Char} (accepted : accepts .expression inner = true) :
      IsOperand ('(' :: (inner ++ [')']))

/-- What an operand is matched as, and that no statement other than an expression begins with it,
whatever may follow. -/
structure StandsFor (text : List Char) (nodes : List (Node Rule)) : Prop where
  primary : ∀ rest, Follows rest →
    grammar.Takes .free (.rule .primaryExpression) (text ++ rest) rest (LooksLike nodes)
  noForm : ∀ rest, Follows rest →
    ∀ form ∈ statementForms, grammar.Refuses .free (.rule form) (text ++ rest)

/-- An operand begins with none of the characters that may follow one. -/
theorem StandsFor.exists_eq_cons {nodes : List (Node Rule)} (h : StandsFor text nodes) :
    ∃ c more, text = c :: more ∧ c ∉ followers := by
  obtain ⟨_, _, -, gives⟩ := h.primary [] (fun _ none => nomatch none) 0
  rw [List.append_nil] at gives
  cases text with
  | nil => exact nomatch gives.unique (refuses_end (by decide) 0)
  | cons c more =>
    have avoided : followers.all (fun c =>
        avoids .free (.rule .primaryExpression) (some c)) = true := by decide
    refine ⟨c, more, rfl, fun mem => ?_⟩
    exact nomatch gives.unique (refuses_at (List.all_eq_true.mp avoided c mem) more 0)

/-- Statements other than expressions begin with one of some words, with a brace or with a
semicolon. -/
theorem refuses_statementForms
    (noWord : ∀ k ∈ Keyword.openings, grammar.Refuses .free (.rule k.rule) text)
    (others : ∀ form ∈ [Rule.blockStatement, .emptyStatement],
      grammar.Refuses .free (.rule form) text) :
    ∀ form ∈ statementForms, grammar.Refuses .free (.rule form) text := by
  simp only [Keyword.openings, List.forall_mem_cons] at noWord
  obtain ⟨function, declaration, conditional, loop, counting, leaving, -⟩ := noWord
  have word {kw form : Rule} {more : Pattern Rule} (refused : grammar.Refuses .free (.rule kw) text)
      (body : grammar.body form = .seq (.rule kw) more) (normal : grammar.kind form = .normal) :
      grammar.Refuses .free (.rule form) text := by
    refine .rule ?_
    rw [normal, body]
    exact refused.seq more
  simp only [statementForms, List.forall_mem_cons]
  exact ⟨word function rfl rfl, word declaration rfl rfl, word conditional rfl rfl,
    word loop rfl rfl, word counting rfl rfl, word leaving rfl rfl, others _ (by decide),
    others _ (by decide), List.forall_mem_nil _⟩

section Literals

variable {rule : Rule} (mem : rule ∈ literalRules) (accepted : accepts rule text = true)
include mem accepted

theorem exists_takes_literal :
    ∃ nodes, ∀ rest, Follows rest →
      grammar.Takes .free (.rule rule) (text ++ rest) rest (LooksLike nodes) := by
  have sorted : ∀ rule ∈ literalRules, rule = .stringLiteral ∨ rule ∈ wordForms := by decide
  rcases sorted rule mem with rfl | word
  · obtain ⟨nodes, taken⟩ := exists_takes_string accepted
    exact ⟨nodes, fun rest _ => taken rest⟩
  · exact ⟨_, fun rest => takes_wordForm word accepted⟩

/-- A name or a literal is taken as it is when it stands alone. -/
theorem takes_literal {nodes : List (Node Rule)} {q : Place}
    (read : (grammar.read rule text).1 = .matched nodes q) (follows : Follows rest) :
    grammar.Takes .free (.rule rule) (text ++ rest) rest (LooksLike nodes) := by
  obtain ⟨_, taken⟩ := exists_takes_literal mem accepted
  obtain ⟨_, _, same, gives⟩ := taken [] (fun _ none => nomatch none) 0
  have alone := (ranked.gives_read rule text).2
  rw [read] at alone
  rw [List.append_nil] at gives
  obtain ⟨rfl, -⟩ := Outcome.matched.inj (gives.unique alone)
  exact (taken rest follows).mono fun _ same' => same.symm.trans same'

/-- No name and no literal is taken for a reserved word of another kind. -/
theorem refuses_keyword_of_literal (follows : Follows rest) {k : Keyword} (listed : k ∈ Keyword.all)
    (other : k.rule ≠ rule) : grammar.Refuses .free (.rule k.rule) (text ++ rest) := by
  obtain ⟨nodes, taken⟩ := exists_takes_literal mem accepted
  have sorted : ∀ rule ∈ literalRules, rule = .identifier ∨ rule = .booleanLiteral ∨
      ∀ k ∈ Keyword.all, k.rule ≠ rule →
        isApart .free (.rule rule) .free (.rule k.rule) = true := by decide
  have different : ∀ k ∈ Keyword.all, k.rule ≠ .booleanLiteral →
      ∀ w ∈ Keyword.boolean.first :: Keyword.boolean.others, w ∉ k.first :: k.others := by decide
  rcases sorted rule mem with rfl | rfl | apart
  · exact Keyword.refuses_name listed accepted follows
  · exact Keyword.refuses_of_takes (k := .boolean) (different k listed other) (taken rest follows)
  · exact refuses_of_isApart (taken rest follows) (apart k listed other)

theorem refuses_opening_of_literal (follows : Follows rest) {k : Keyword}
    (opening : k ∈ Keyword.openings) : grammar.Refuses .free (.rule k.rule) (text ++ rest) := by
  have other : ∀ k ∈ Keyword.openings, k.rule ∉ literalRules := by decide
  have listed : ∀ k ∈ Keyword.openings, k ∈ Keyword.all := fun _ mem => .tail _ (.tail _ mem)
  refine refuses_keyword_of_literal mem accepted follows (listed k opening) fun same => ?_
  exact other k opening (same ▸ mem)

/-- A name or a literal as an operand. -/
theorem standsFor_literal {nodes : List (Node Rule)} {q : Place}
    (read : (grammar.read rule text).1 = .matched nodes q) : StandsFor text nodes where
  primary rest follows := by
    have taken := takes_literal mem accepted read follows
    have here : ∀ rule ∈ literalRules, ∃ n < 8, operandForms[n]? = some rule := by decide
    have sorted : ∀ rule ∈ literalRules, ∀ other ∈ confusable rule, other = .functionExpression ∨
        ∃ k ∈ Keyword.all, k.rule = other ∧ k.rule ≠ rule := by decide
    obtain ⟨n, -, here⟩ := here rule mem
    refine takes_primary n taken here fun other confused => ?_
    rcases sorted rule mem other confused with rfl | ⟨k, listed, rfl, different⟩
    · have function : Keyword.function ∈ Keyword.openings := List.mem_cons_self
      exact .rule ((refuses_opening_of_literal mem accepted follows function).seq _)
    · exact refuses_keyword_of_literal mem accepted follows listed different
  noForm rest follows := by
    have taken := takes_literal mem accepted read follows
    have apart : ∀ rule ∈ literalRules, ∀ form ∈ [Rule.blockStatement, .emptyStatement],
      isApart .free (.rule rule) .free (.rule form) = true := by decide
    exact refuses_statementForms
      (fun k opening => refuses_opening_of_literal mem accepted follows opening)
      fun form listed => refuses_of_isApart taken (apart rule mem form listed)

end Literals

/-- An expression in parentheses as an operand. -/
theorem exists_standsFor_parentheses {inner : List Char} {program : Program}
    (accepted : accepts .expression inner = true)
    (parsed : parseScript (String.ofList ('(' :: (inner ++ [')']))) = .ok program) :
    ∃ nodes, StandsFor ('(' :: (inner ++ [')'])) nodes := by
  obtain ⟨nodes, taken⟩ := takes_enclosed accepted (enclosed_of_parseScript accepted parsed)
  have others : ∀ form ∈ statementForms, avoids .free (.rule form) (some '(') = true := by decide
  refine ⟨nodes, fun rest _ => ?_, fun rest _ form mem => refuses_at (others form mem) _⟩
  rw [List.cons_append, List.append_assoc]
  exact takes_parentheses (taken rest)

/-- **Every operand is taken** before what may follow it. -/
theorem exists_standsFor (h : IsOperand text)
    (parsed : text.head? = some '(' → ∃ program, parseScript (String.ofList text) = .ok program) :
    ∃ nodes, StandsFor text nodes := by
  cases h with
  | word mem accepted =>
    obtain ⟨nodes, stop, gives⟩ := gives_of_accepts accepted
    exact ⟨nodes, standsFor_literal mem accepted ((ranked.gives_read _ _).2.unique gives)⟩
  | parentheses accepted =>
    obtain ⟨program, parsed⟩ := parsed rfl
    exact exists_standsFor_parentheses accepted parsed

end Language

end ScriptTrace
