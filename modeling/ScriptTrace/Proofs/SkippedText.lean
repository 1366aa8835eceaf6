import Mathlib.Data.List.Basic
import Mathlib.Data.List.Induction
import ScriptTrace.Proofs.ScriptLayout

/-!
# Which texts are skipped

`ScriptTrace.Proofs.ScriptLayout` shows that what is skipped consists of blanks and comments.  Here
it is said exactly how much is skipped: all blanks and comments up to a text that begins with
neither.  Such a text is *solid*.  So whether a text is skipped at a place is a question about the
text alone, and it can be answered for a text with something before it or after it.

* In front, blanks and comments with both of their marks change nothing: they are skipped together
  with what was skipped before (`Text.Padding.trivia`).
* Blanks at the end change only what is skipped at the end.  A comment up to the end of a line goes
  on into the blanks if the text ended without one, and then what is left of the blanks is skipped
  after it (`Text.Trivia.append_blanks`).  Elsewhere nothing changes, since a blank is part of no
  mark (`Text.Trivia.continued`, `Text.Solid.append_blanks`).

A string literal also ends within a text if it ends within the text and blanks after it, since
quotation marks are no blanks.

* `Text.Solid`: texts of which nothing is skipped.
* `Text.Padding`: blanks and comments with both marks.
* `Language.gives_trivia`, `Language.solid_of_trivia`: how much is skipped.
* `Language.quoted_of_matches`: string literals.
-/

namespace ScriptTrace

open Peg

/-! ## Texts -/

namespace Text

/-- A text that begins neither with a blank nor with a comment. -/
structure Solid (text : List Char) : Prop where
  noBlank : ∀ c, text.head? = some c → c ∉ blanks
  noComment : ∀ comment rest, text = comment ++ rest → ¬ Comment comment rest

/-- A text of blanks and of comments with both of their marks. -/
inductive Padding : List Char → Prop
  | nil : Padding []
  | blank {c : Char} {text : List Char} (mem : c ∈ blanks) (more : Padding text) :
      Padding (c :: text)
  | comment {body text : List Char} (inside : ¬ ['*', '/'] <:+: body) (more : Padding text) :
      Padding ('/' :: '*' :: (body ++ ['*', '/']) ++ text)

/-- Blanks only. -/
def AllBlank (text : List Char) : Prop :=
  ∀ c ∈ text, c ∈ blanks

/-- Whether two lists of characters have none in common can be computed. -/
theorem not_mem_of_apart {chars others : List Char}
    (apart : chars.all (fun c => !others.contains c) = true) {c : Char} (mem : c ∈ chars) :
    c ∉ others := by
  intro inside
  have outside := List.all_eq_true.mp apart c mem
  rw [List.contains_iff_mem.mpr inside] at outside
  exact nomatch outside

variable {text rest more comment tail : List Char}

/-- Whatever follows, padding is blanks and comments. -/
theorem Padding.trivia (h : Padding text) (rest : List Char) : Trivia text rest := by
  induction h with
  | nil => exact .nil rest
  | blank mem _ ih => exact .blank mem ih
  | comment inside _ ih => exact .comment (.block inside) ih

theorem trivia_of_allBlank (blank : AllBlank text) (rest : List Char) : Trivia text rest := by
  induction text with
  | nil => exact .nil rest
  | cons c text ih =>
    obtain ⟨mem, further⟩ := List.forall_mem_cons.mp blank
    exact .blank mem (ih further)

theorem solid_nil : Solid [] where
  noBlank _ head := nomatch head
  noComment comment rest split isComment := by
    obtain ⟨rfl, -⟩ := List.append_eq_nil_iff.mp split.symm
    cases isComment

/-- After two strokes there is a comment up to the end of the line. -/
theorem exists_lineComment (text : List Char) :
    ∃ body rest, text = body ++ rest ∧ Comment ('/' :: '/' :: body) rest := by
  induction text with
  | nil => exact ⟨[], [], rfl, .line (List.forall_mem_nil _) fun _ head => nomatch head⟩
  | cons c text ih =>
    by_cases ends : c ∈ lineEnds
    · refine ⟨[], c :: text, rfl, .line (List.forall_mem_nil _) fun d head => ?_⟩
      rwa [← Option.some.inj head]
    · obtain ⟨body, rest, rfl, isComment⟩ := ih
      cases isComment with
      | line inside ends' =>
        exact ⟨c :: body, rest, rfl, .line (List.forall_mem_cons.mpr ⟨ends, inside⟩) ends'⟩

/-- What follows a comment matters only at its beginning. -/
theorem Comment.continued (h : Comment comment rest) (ne : rest ≠ []) (tail : List Char) :
    Comment comment (rest ++ tail) := by
  cases h with
  | block inside => exact .block inside
  | line inside ends =>
    refine .line inside fun c head => ends c ?_
    rwa [List.head?_append_of_ne_nil _ ne] at head

/-- More text after what follows changes nothing. -/
theorem Trivia.continued (h : Trivia text rest) (ne : rest ≠ []) (tail : List Char) :
    Trivia text (rest ++ tail) := by
  induction h with
  | nil => exact .nil _
  | blank mem _ ih => exact .blank mem (ih ne)
  | comment isComment _ ih =>
    refine .comment ?_ (ih ne)
    rw [← List.append_assoc]
    exact isComment.continued (fun none => ne (List.append_eq_nil_iff.mp none).2) tail

/-- **Blanks at the end are skipped** with the blanks and comments before them. -/
theorem Trivia.append_blanks (h : Trivia text []) (blank : AllBlank tail) :
    Trivia (text ++ tail) [] := by
  generalize nothing : ([] : List Char) = rest at h
  induction h with
  | nil => exact trivia_of_allBlank blank _
  | blank mem _ ih => exact .blank mem (ih nothing)
  | @comment first text rest isComment _ ih =>
    subst nothing
    rw [List.append_nil] at isComment
    rw [List.append_assoc]
    cases text with
    | cons c text =>
      refine .comment ?_ (ih rfl)
      rw [List.append_nil]
      exact isComment.continued (List.cons_ne_nil _ _) tail
    | nil =>
      cases isComment with
      | block inside => exact .comment (.block inside) (ih rfl)
      | @line body _ inside _ =>
        -- the comment goes on up to the end of the first line of blanks
        obtain ⟨more, rest, rfl, isComment⟩ := exists_lineComment tail
        have further : AllBlank rest := fun c mem => blank c (List.mem_append_right _ mem)
        have whole : Comment ('/' :: '/' :: (body ++ more)) (rest ++ []) := by
          rw [List.append_nil]
          cases isComment with
          | line inside' ends => exact .line (List.forall_mem_append.mpr ⟨inside, inside'⟩) ends
        have trivia := Trivia.comment whole (trivia_of_allBlank further [])
        simpa using trivia

/-- A text that ends with a character that is no blank, and begins a text with blanks at its end,
begins it before the blanks. -/
theorem exists_of_append_blanks {last : Char} (blank : AllBlank tail) (solid : last ∉ blanks)
    (split : text ++ tail = (more ++ [last]) ++ rest) :
    ∃ rest', text = (more ++ [last]) ++ rest' := by
  rcases List.append_eq_append_iff.mp split with ⟨beyond, whole, rfl⟩ | ⟨rest', within, rfl⟩
  · cases beyond using List.reverseRecOn with
    | nil => exact ⟨[], by simpa using whole.symm⟩
    | append_singleton beyond c =>
      rw [← List.append_assoc] at whole
      obtain ⟨-, same⟩ := List.append_inj' whole rfl
      obtain rfl := List.singleton_inj.mp same
      exact absurd (blank last (by simp)) solid
  · exact ⟨rest', within⟩

/-- **Blanks at the end of a solid text leave it solid**: they complete no comment. -/
theorem Solid.append_blanks (h : Solid text) (ne : text ≠ []) (blank : AllBlank tail) :
    Solid (text ++ tail) where
  noBlank c head := h.noBlank c (by rwa [List.head?_append_of_ne_nil _ ne] at head)
  noComment comment rest split isComment := by
    cases isComment with
    | @block body _ inside =>
      have marked : text ++ tail = ('/' :: '*' :: (body ++ ['*'])) ++ ['/'] ++ rest := by
        rw [split]
        simp
      obtain ⟨rest', within⟩ := exists_of_append_blanks blank (by decide) marked
      refine h.noComment ('/' :: '*' :: (body ++ ['*', '/'])) rest' ?_ (.block inside)
      rw [within]
      simp
    | @line body _ _ _ =>
      have marked : text ++ tail = ['/'] ++ ['/'] ++ (body ++ rest) := split
      obtain ⟨rest', rfl⟩ := exists_of_append_blanks blank (by decide) marked
      obtain ⟨body', rest', rfl, isComment⟩ := exists_lineComment rest'
      exact h.noComment _ rest' rfl isComment

end Text

namespace Language

variable {text rest : List Char} {p q : Place} {nodes : List (Node Rule)}

/-! ## Comments -/

/-- Characters are taken up to a place where a pattern matches or the text ends. -/
theorem takesMore_anyBut {stop : Pattern Rule} {body : List Char}
    (each : ∀ before after, body = before ++ after → after ≠ [] →
      grammar.Refuses .atomic stop (after ++ rest))
    (ends : grammar.Refuses .atomic (anyBut stop) rest) :
    grammar.TakesMore .atomic (anyBut stop) (body ++ rest) rest (· = []) := by
  induction body with
  | nil => exact ends.takesMore (quiet_atomic _)
  | cons c body ih =>
    have first :
        grammar.Takes .atomic (anyBut stop) (c :: (body ++ rest)) (body ++ rest) (· = []) :=
      takes_anyBut (each [] (c :: body) rfl (List.cons_ne_nil _ _))
    refine first.takesMore (quiet_atomic _) (ih fun before after split => ?_) nil_append_nil
    exact each (c :: before) after (congrArg (c :: ·) split)

/-- The body of a comment up to the end of the line. -/
theorem takes_lineBody {body : List Char} (inside : ∀ c ∈ body, c ∉ Text.lineEnds)
    (ends : ∀ c, rest.head? = some c → c ∈ Text.lineEnds) :
    grammar.Takes .atomic (.many (anyBut (.rule .lineTerminator))) (body ++ rest) rest
      (· = []) := by
  refine (takesMore_anyBut ?_ ?_).takes_many (by decide)
  · intro before after split nonempty
    obtain ⟨c, after, rfl⟩ := List.exists_cons_of_ne_nil nonempty
    exact refuses_lineTerminator (inside c (split ▸ by simp)) _
  · cases rest with
    | nil => exact refuses_end (by decide)
    | cons c rest => exact (takes_lineTerminator (ends c rfl) rest).refuses_absent.seq _

/-- The body of a comment up to the closing mark. -/
theorem takes_blockBody {body : List Char} (inside : ¬ ['*', '/'] <:+: body) (rest : List Char) :
    grammar.Takes .atomic (.many (anyBut (word "*/"))) (body ++ '*' :: '/' :: rest)
      ('*' :: '/' :: rest) (· = []) := by
  have mark : grammar.Takes .atomic (word "*/") ('*' :: '/' :: rest) rest (· = []) :=
    Grammar.takes_text ['*', '/'] rest
  refine (takesMore_anyBut ?_ (mark.refuses_absent.seq _)).takes_many (by decide)
  intro before after split nonempty
  refine Grammar.refuses_text fun begins => inside ?_
  -- a mark that begins before the end of the body is inside of it: the mark after the body begins
  -- with a star and not with a stroke
  change ['*', '/'] <+: after ++ '*' :: '/' :: rest at begins
  rw [split]
  match after, begins with
  | [], _ => exact absurd rfl nonempty
  | [c], begins =>
    obtain ⟨-, ends⟩ := List.cons_prefix_cons.mp begins
    obtain ⟨ends, -⟩ := List.cons_prefix_cons.mp ends
    exact absurd ends (by decide)
  | c :: d :: after, begins =>
    obtain ⟨rfl, ends⟩ := List.cons_prefix_cons.mp begins
    obtain ⟨rfl, -⟩ := List.cons_prefix_cons.mp ends
    exact ⟨before, after, by simp⟩

/-- **A comment is taken whole.** -/
theorem takes_comment (h : Text.Comment text rest) :
    grammar.Takes .atomic (.rule .comment) (text ++ rest) rest (· = []) := by
  refine .silent ?_ (by decide)
  cases h with
  | @line body _ inside ends =>
    have opened : grammar.Takes .atomic (word "//") ('/' :: '/' :: (body ++ rest)) (body ++ rest)
        (· = []) := Grammar.takes_text ['/', '/'] _
    exact (opened.seq (quiet_atomic _) (takes_lineBody inside ends) nil_append_nil).choice _
  | @block body _ inside =>
    have text_eq : '/' :: '*' :: (body ++ ['*', '/']) ++ rest =
        ['/', '*'] ++ (body ++ '*' :: '/' :: rest) := by simp
    rw [text_eq]
    have opened : grammar.Takes .atomic (word "/*") (['/', '*'] ++ (body ++ '*' :: '/' :: rest))
        (body ++ '*' :: '/' :: rest) (· = []) := Grammar.takes_text ['/', '*'] _
    have closed : grammar.Takes .atomic (word "*/") ('*' :: '/' :: rest) rest (· = []) :=
      Grammar.takes_text ['*', '/'] rest
    have other : ¬ ['/', '/'] <+: ['/', '*'] ++ (body ++ '*' :: '/' :: rest) := by
      rintro ⟨after, same⟩
      obtain ⟨-, same⟩ := List.cons.inj same
      exact absurd (List.cons.inj same).1 (by decide)
    refine .choice_of_refuses (.seq (Grammar.refuses_text other) _) ?_
    exact opened.seq (quiet_atomic _) ((takes_blockBody inside rest).seq (quiet_atomic _) closed
      nil_append_nil) nil_append_nil

/-! ## How much is skipped -/

theorem takes_blank {c : Char} (mem : c ∈ Text.blanks) (rest : List Char) :
    grammar.Takes .atomic blank (c :: rest) rest (· = []) := by
  have taken : grammar.Takes .atomic (.oneOf (.text [' ']) (Text.blanks.tail.map fun d =>
    .text [d])) (c :: rest) rest (· = []) := takes_oneOf_char mem rest
  exact (Grammar.Takes.silent taken (by decide)).choice _

theorem takes_blank_of_comment (h : Text.Comment text rest) :
    grammar.Takes .atomic blank (text ++ rest) rest (· = []) := by
  refine .choice_of_refuses ?_ (takes_comment h)
  have refused : ∀ rest, grammar.Refuses .atomic (.rule .whitespace) ('/' :: rest) :=
    refuses_at (by decide)
  cases h with
  | line _ _ => exact refused _
  | block _ => exact refused _

/-- Nothing is skipped of a solid text. -/
theorem refuses_blank (solid : Text.Solid text) : grammar.Refuses .atomic blank text := by
  intro offset
  obtain ⟨outcome, settled, gives⟩ :=
    ranked.exists_gives (show blank.descends profile Rule.all.length Rule.all.length = true by
      decide) .atomic ⟨offset, text⟩
  cases outcome with
  | exhausted => exact absurd rfl settled
  | failed => exact gives
  | matched nodes q =>
    obtain ⟨-, taken, reaches, ⟨c, mem, rfl⟩ | isComment⟩ := blank_of_matches gives.matches
    · exact absurd mem (solid.noBlank c (congrArg List.head? reaches.rest_eq))
    · exact absurd isComment (solid.noComment taken q.rest reaches.rest_eq)

/-- Only of a solid text nothing is skipped. -/
theorem solid_of_failed (h : grammar.Gives .atomic blank p .failed) : Text.Solid p.rest := by
  obtain ⟨offset, text⟩ := p
  constructor
  · intro c head mem
    cases text with
    | nil => exact nomatch head
    | cons d rest =>
      obtain rfl : d = c := Option.some.inj head
      obtain ⟨_, _, -, taken⟩ := takes_blank mem rest offset
      exact nomatch h.unique taken
  · rintro comment rest rfl isComment
    obtain ⟨_, _, -, taken⟩ := takes_blank_of_comment isComment offset
    exact nomatch h.unique taken

/-- **Blanks and comments are skipped** up to a solid text. -/
theorem takes_trivia (trivia : Text.Trivia text rest) (solid : Text.Solid rest) :
    grammar.Takes .atomic grammar.trivia (text ++ rest) rest (· = []) := by
  rw [trivia_eq]
  refine Grammar.TakesMore.takes_many ?_ (by decide)
  induction trivia with
  | nil => exact (refuses_blank solid).takesMore (quiet_atomic _)
  | blank mem _ ih => exact (takes_blank mem _).takesMore (quiet_atomic _) (ih solid) nil_append_nil
  | comment isComment _ ih =>
    rw [List.append_assoc]
    exact (takes_blank_of_comment isComment).takesMore (quiet_atomic _) (ih solid) nil_append_nil

theorem gives_trivia (trivia : Text.Trivia text rest) (solid : Text.Solid rest) (offset : Nat) :
    grammar.Gives .atomic grammar.trivia ⟨offset, text ++ rest⟩
      (.matched [] ⟨offset + Text.byteLength text, rest⟩) := by
  obtain ⟨_, stop, rfl, gives⟩ := takes_trivia trivia solid offset
  obtain ⟨taken, reaches⟩ := gives.matches.reaches
  obtain rfl : text = taken := List.append_cancel_right reaches.rest_eq
  obtain rfl : stop = offset + Text.byteLength text := reaches.offset_eq
  exact gives

theorem solid_of_trivia (h : grammar.Matches .atomic grammar.trivia p nodes q) :
    Text.Solid q.rest :=
  Grammar.Matches.many_induction (P := fun _ _ q => Text.Solid q.rest) (by decide)
    (fun _ => solid_of_failed) (fun _ _ _ _ _ _ solid => solid) h

/-! ## String literals -/

theorem takes_unquotable {quote c : Char} (mem : c ∈ specials quote) (rest : List Char) :
    grammar.Takes .atomic (unquotable quote) (c :: rest) rest (· = []) := by
  by_cases isQuote : quote = c
  · rw [isQuote]
    exact (Grammar.takes_text [c] rest).choice _
  refine .choice_of_refuses (refuses_text_of_ne isQuote rest) ?_
  by_cases isBackslash : '\\' = c
  · rw [← isBackslash]
    exact (Grammar.takes_text ['\\'] rest).choice _
  refine .choice_of_refuses (refuses_text_of_ne isBackslash rest) ?_
  refine takes_lineTerminator ?_ rest
  have others := (List.mem_cons.mp mem).resolve_left fun eq => isQuote eq.symm
  exact (List.mem_cons.mp others).resolve_left fun eq => isBackslash eq.symm

/-- The characters between two quotation marks. -/
theorem quotable_of_matches {quote : Char}
    (h : grammar.Matches .atomic (.many (stringCharacter quote)) p nodes q) :
    nodes = [] ∧ ∃ text, p.Reaches text q ∧ Text.Quotable quote text := by
  have tight : Mode.atomic ≠ .free := by decide
  refine Grammar.Matches.many_induction
    (P := fun p nodes q => nodes = [] ∧ ∃ text, p.Reaches text q ∧ Text.Quotable quote text)
    tight ?_ ?_ h
  · intro p _
    exact ⟨rfl, [], .refl p, .nil⟩
  · rintro p xs p₁ ys q item ⟨rfl, text, reaches, quotable⟩
    cases item with
    | choiceFirst plain =>
      obtain ⟨as, p', bs, first, second, rfl⟩ := plain.seq_tight tight
      cases first with
      | absent fails =>
        cases second with
        | @char _ _ c _ _ _ eaten =>
          refine ⟨rfl, c :: text, eaten.trans reaches, .plain (fun mem => ?_) quotable⟩
          obtain ⟨_, _, -, taken⟩ := takes_unquotable mem p₁.rest p.offset
          have here : p = ⟨p.offset, c :: p₁.rest⟩ := congrArg (Place.mk p.offset) eaten.rest_eq
          rw [here] at fails
          exact nomatch fails.unique taken
    | choiceSecond escaped =>
      cases escaped with
      | @rule _ _ _ _ nodes body =>
        change grammar.Matches .atomic (.seq (word "\\") (.char .any)) p nodes p₁ at body
        obtain ⟨as, p', bs, first, second, rfl⟩ := body.seq_tight tight
        cases first with
        | text opened =>
          cases second with
          | @char _ _ c _ _ _ eaten =>
            exact ⟨rfl, '\\' :: c :: text, opened.trans (eaten.trans reaches), .escaped c quotable⟩

/-- The match of a rule for the characters between two quotation marks. -/
theorem characters_of_matches {quote : Char} (isQuote : quote = '"' ∨ quote = '\'')
    (h : grammar.Matches .compound (.rule (charactersRule quote)) p nodes q) :
    ∃ text, p.Reaches text q ∧ Text.Quotable quote text ∧
      nodes = [.mk (charactersRule quote) p.offset q.offset text []] := by
  cases h with
  | @rule _ _ _ _ children body =>
    have characters : grammar.Matches .atomic (.many (stringCharacter quote)) p children q := by
      rcases isQuote with rfl | rfl <;> exact body
    have kept : (grammar.kind (charactersRule quote)).isVisible = true ∧
        (grammar.kind (charactersRule quote)).outer .compound ≠ .atomic := by
      rcases isQuote with rfl | rfl <;> decide
    obtain ⟨rfl, text, reaches, quotable⟩ := quotable_of_matches characters
    refine ⟨text, reaches, quotable, ?_⟩
    rw [Grammar.nodesOf, if_pos kept, reaches.upTo_eq]

/-- **The match of a string literal**, with its node. -/
theorem quoted_of_matches (h : grammar.Matches .free (.rule .stringLiteral) p nodes q) :
    ∃ quote text, (quote = '"' ∨ quote = '\'') ∧ Text.Quotable quote text ∧
      p.Reaches (quote :: (text ++ [quote])) q ∧ ∃ a b, nodes =
        [.mk .stringLiteral p.offset q.offset (p.upTo q.offset)
          [.mk (charactersRule quote) a b text []]] := by
  have tight : Mode.compound ≠ .free := by decide
  have quoted (quote : Char) (isQuote : quote = '"' ∨ quote = '\'') {xs : List (Node Rule)}
      (body : grammar.Matches .compound
        (.inOrder (.text [quote]) [.rule (charactersRule quote), .text [quote]]) p xs q) :
      ∃ text, Text.Quotable quote text ∧ p.Reaches (quote :: (text ++ [quote])) q ∧
        ∃ a b, xs = [.mk (charactersRule quote) a b text []] := by
    obtain ⟨_, p₁, _, opens, inner, rfl⟩ := body.seq_tight tight
    obtain ⟨_, p₂, _, characters, closes, rfl⟩ := inner.seq_tight tight
    obtain ⟨text, reaches, quotable, rfl⟩ := characters_of_matches isQuote characters
    cases opens with
    | text opened =>
      cases closes with
      | text closed => exact ⟨text, quotable, opened.trans (reaches.trans closed), _, _, rfl⟩
  cases h with
  | @rule _ _ _ _ xs body =>
    change ∃ quote text, _ ∧ _ ∧ _ ∧ ∃ a b, [_] = _
    cases body with
    | choiceFirst double =>
      obtain ⟨text, quotable, reaches, a, b, rfl⟩ := quoted '"' (.inl rfl) double
      exact ⟨'"', text, .inl rfl, quotable, reaches, a, b, rfl⟩
    | choiceSecond single =>
      obtain ⟨text, quotable, reaches, a, b, rfl⟩ := quoted '\'' (.inr rfl) single
      exact ⟨'\'', text, .inr rfl, quotable, reaches, a, b, rfl⟩

end Language

end ScriptTrace
