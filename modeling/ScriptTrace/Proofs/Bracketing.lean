import ScriptTrace.Proofs.SkippedText

/-!
# Parentheses in a text

An expression in parentheses ends at the parenthesis that closes the one before it.  Which one that
is can be said of the text alone, without the grammar: parentheses are counted, except for those in
string literals and in comments.  `Text.Bracketed n text` says that the parentheses of a text come
out even when it follows a text with `n` open ones.

## What a text begins with

The relation is built up from the end of a text: whatever can stand in front has a constructor.  It
is read from the beginning, and then it has to be known that what stands there is what a constructor
put in front.  All that a bracketed text can begin with is said once (`Text.Bracketed.of_cons`).
String literals and comments end where they end, whatever follows (`Text.Comment.rest_eq`,
`Text.Quotable.rest_eq`), and so every stretch of a text counts the same in front of any rest.

A comment up to the end of a line may be left open at the end of a text.  A parenthesis after such a
text is part of the comment.  `Text.Enclosed` excludes this: the parentheses come out even also if
one more is open and a closing one follows.

* `Text.Bracketed`, `Text.Enclosed`: texts whose parentheses come out even.
* `Text.bracketed_trivia_iff`, `Text.bracketed_quoted_iff`, `Text.bracketed_append_iff`: stretches
  without parentheses that count.
* `Text.Enclosed.trivia`, `Text.Enclosed.solid`: skipped text before a closing parenthesis.
-/

namespace ScriptTrace

open Peg ScriptTrace.Language

namespace Text

/-- The characters that begin something else than one character of a word or a sign. -/
def markers : List Char :=
  ['(', ')', '"', '\'', '/']

/-- A text whose parentheses come out even after a given number of open ones. -/
inductive Bracketed : Nat → List Char → Prop
  | nil : Bracketed 0 []
  | plain {n : Nat} {c : Char} {text : List Char} (other : c ∉ markers)
      (more : Bracketed n text) : Bracketed n (c :: text)
  | opens {n : Nat} {text : List Char} (more : Bracketed (n + 1) text) : Bracketed n ('(' :: text)
  | closes {n : Nat} {text : List Char} (more : Bracketed n text) : Bracketed (n + 1) (')' :: text)
  | quoted {n : Nat} {quote : Char} {body text : List Char} (isQuote : quote = '"' ∨ quote = '\'')
      (quotable : Quotable quote body) (more : Bracketed n text) :
      Bracketed n (quote :: (body ++ quote :: text))
  | comment {n : Nat} {comment text : List Char} (isComment : Comment comment text)
      (more : Bracketed n text) : Bracketed n (comment ++ text)
  /-- A stroke that begins no comment. -/
  | stroke {n : Nat} {text : List Char} (noMark : ∀ c, text.head? = some c → c ≠ '/' ∧ c ≠ '*')
      (more : Bracketed n text) : Bracketed n ('/' :: text)

variable {n : Nat} {c quote : Char} {text rest body comment tail : List Char}

/-! ## Where strings and comments end -/

/-- Two comments at the beginning of a text leave the same rest. -/
theorem Comment.rest_eq {comment' rest' : List Char} (h : Comment comment rest)
    (h' : Comment comment' rest') (same : comment ++ rest = comment' ++ rest') : rest = rest' := by
  obtain ⟨_, _, -, taken⟩ := takes_comment h 0
  obtain ⟨_, _, -, taken'⟩ := takes_comment h' 0
  rw [same] at taken
  exact (Place.mk.inj (Outcome.matched.inj (taken.unique taken')).2).2

/-- Two string literals at the beginning of a text leave the same rest. -/
theorem Quotable.rest_eq {body' rest' : List Char} (isQuote : quote = '"' ∨ quote = '\'')
    (h : Quotable quote body) (h' : Quotable quote body')
    (same : body ++ quote :: rest = body' ++ quote :: rest') : rest = rest' := by
  obtain ⟨_, _, -, taken⟩ := takes_stringLiteral isQuote h rest 0
  obtain ⟨_, _, -, taken'⟩ := takes_stringLiteral isQuote h' rest' 0
  rw [same] at taken
  exact (Place.mk.inj (Outcome.matched.inj (taken.unique taken')).2).2

/-- A comment begins with a stroke and one of two marks. -/
theorem Comment.exists_eq (h : Comment comment rest) :
    ∃ mark more, (mark = '/' ∨ mark = '*') ∧ comment = '/' :: mark :: more := by
  cases h with
  | line _ _ => exact ⟨'/', _, .inl rfl, rfl⟩
  | block _ => exact ⟨'*', _, .inr rfl, rfl⟩

/-! ## What a bracketed text begins with -/

/-- What a bracketed text with a given first character is. -/
theorem Bracketed.of_cons (h : Bracketed n (c :: text)) :
    (c ∉ markers ∧ Bracketed n text) ∨
    (c = '(' ∧ Bracketed (n + 1) text) ∨
    (c = ')' ∧ ∃ m, n = m + 1 ∧ Bracketed m text) ∨
    ((c = '"' ∨ c = '\'') ∧
      ∃ body rest, Quotable c body ∧ text = body ++ c :: rest ∧ Bracketed n rest) ∨
    (c = '/' ∧ ((∃ comment rest, c :: text = comment ++ rest ∧ Comment comment rest ∧
        Bracketed n rest) ∨
      (∀ d, text.head? = some d → d ≠ '/' ∧ d ≠ '*') ∧ Bracketed n text)) := by
  generalize whole : c :: text = all at h
  cases h with
  | nil => exact nomatch whole
  | plain other more =>
    obtain ⟨rfl, rfl⟩ := List.cons.inj whole
    exact .inl ⟨other, more⟩
  | opens more =>
    obtain ⟨rfl, rfl⟩ := List.cons.inj whole
    exact .inr (.inl ⟨rfl, more⟩)
  | closes more =>
    obtain ⟨rfl, rfl⟩ := List.cons.inj whole
    exact .inr (.inr (.inl ⟨rfl, _, rfl, more⟩))
  | quoted isQuote quotable more =>
    obtain ⟨rfl, rfl⟩ := List.cons.inj whole
    exact .inr (.inr (.inr (.inl ⟨isQuote, _, _, quotable, rfl, more⟩)))
  | comment isComment more =>
    obtain ⟨mark, inside, -, eq⟩ := isComment.exists_eq
    have first : c = '/' := by
      rw [eq] at whole
      exact (List.cons.inj whole).1
    exact .inr (.inr (.inr (.inr ⟨first, .inl ⟨_, _, rfl, isComment, more⟩⟩)))
  | stroke noMark more =>
    obtain ⟨rfl, rfl⟩ := List.cons.inj whole
    exact .inr (.inr (.inr (.inr ⟨rfl, .inr ⟨noMark, more⟩⟩)))

theorem bracketed_nil_iff : Bracketed n [] ↔ n = 0 := by
  constructor
  · intro h
    generalize none : ([] : List Char) = all at h
    cases h with
    | nil => rfl
    | comment isComment _ =>
      obtain ⟨_, _, -, rfl⟩ := isComment.exists_eq
      exact nomatch none
    | _ => exact nomatch none
  · rintro rfl
    exact .nil

theorem bracketed_plain_iff (other : c ∉ markers) :
    Bracketed n (c :: text) ↔ Bracketed n text := by
  refine ⟨fun h => ?_, .plain other⟩
  rcases h.of_cons with ⟨-, more⟩ | ⟨rfl, -⟩ | ⟨rfl, -⟩ | ⟨rfl | rfl, -⟩ | ⟨rfl, -⟩
  · exact more
  all_goals exact absurd (by decide) other

theorem bracketed_opens_iff : Bracketed n ('(' :: text) ↔ Bracketed (n + 1) text := by
  refine ⟨fun h => ?_, .opens⟩
  rcases h.of_cons with ⟨other, -⟩ | ⟨-, more⟩ | ⟨eq, -⟩ | ⟨eq | eq, -⟩ | ⟨eq, -⟩
  · exact absurd (by decide) other
  · exact more
  all_goals exact absurd eq (by decide)

theorem bracketed_closes_iff : Bracketed (n + 1) (')' :: text) ↔ Bracketed n text := by
  refine ⟨fun h => ?_, .closes⟩
  rcases h.of_cons with ⟨other, -⟩ | ⟨eq, -⟩ | ⟨-, m, same, more⟩ | ⟨eq | eq, -⟩ | ⟨eq, -⟩
  · exact absurd (by decide) other
  · exact absurd eq (by decide)
  · obtain rfl := Nat.succ.inj same
    exact more
  all_goals exact absurd eq (by decide)

/-- A bracketed text that begins with a quotation mark begins with a string literal. -/
theorem Bracketed.exists_quoted (isQuote : c = '"' ∨ c = '\'') (h : Bracketed n (c :: text)) :
    ∃ body rest, Quotable c body ∧ text = body ++ c :: rest ∧ Bracketed n rest := by
  rcases h.of_cons with ⟨other, -⟩ | ⟨rfl, -⟩ | ⟨rfl, -⟩ | ⟨-, inside⟩ | ⟨rfl, -⟩
  · rcases isQuote with rfl | rfl <;> exact absurd (by decide) other
  · exact absurd isQuote (by decide)
  · exact absurd isQuote (by decide)
  · exact inside
  · exact absurd isQuote (by decide)

/-- A bracketed text that begins with a stroke begins with a comment or goes on without a second
mark. -/
theorem Bracketed.of_stroke (h : Bracketed n ('/' :: text)) :
    (∃ comment rest, '/' :: text = comment ++ rest ∧ Comment comment rest ∧ Bracketed n rest) ∨
      (∀ c, text.head? = some c → c ≠ '/' ∧ c ≠ '*') ∧ Bracketed n text := by
  rcases h.of_cons with ⟨other, -⟩ | ⟨eq, -⟩ | ⟨eq, -⟩ | ⟨eq | eq, -⟩ | ⟨-, inside⟩
  · exact absurd (by decide) other
  · exact absurd eq (by decide)
  · exact absurd eq (by decide)
  · exact absurd eq (by decide)
  · exact absurd eq (by decide)
  · exact inside

/-! ## Stretches that count nothing -/

theorem bracketed_quoted_iff (isQuote : quote = '"' ∨ quote = '\'')
    (quotable : Quotable quote body) :
    Bracketed n (quote :: (body ++ quote :: rest)) ↔ Bracketed n rest := by
  refine ⟨fun h => ?_, .quoted isQuote quotable⟩
  obtain ⟨body', rest', quotable', same, more⟩ := h.exists_quoted isQuote
  rwa [quotable.rest_eq isQuote quotable' same]

theorem bracketed_comment_iff (isComment : Comment comment rest) :
    Bracketed n (comment ++ rest) ↔ Bracketed n rest := by
  refine ⟨fun h => ?_, .comment isComment⟩
  obtain ⟨mark, more, isMark, rfl⟩ := isComment.exists_eq
  rcases h.of_stroke with ⟨comment', rest', same, isComment', further⟩ | ⟨noMark, -⟩
  · rwa [isComment.rest_eq isComment' same]
  · obtain ⟨noStroke, noStar⟩ := noMark mark rfl
    exact absurd isMark (not_or.mpr ⟨noStroke, noStar⟩)

/-- A stroke that begins no comment counts nothing. -/
theorem bracketed_stroke_iff (noMark : ∀ c, text.head? = some c → c ≠ '/' ∧ c ≠ '*') :
    Bracketed n ('/' :: text) ↔ Bracketed n text := by
  refine ⟨fun h => ?_, .stroke noMark⟩
  rcases h.of_stroke with ⟨comment, rest, same, isComment, -⟩ | ⟨-, more⟩
  · obtain ⟨mark, inside, isMark, rfl⟩ := isComment.exists_eq
    obtain ⟨-, rfl⟩ := List.cons.inj same
    obtain ⟨noStroke, noStar⟩ := noMark mark rfl
    exact absurd isMark (not_or.mpr ⟨noStroke, noStar⟩)
  · exact more

/-- Characters of words and signs count nothing. -/
theorem bracketed_append_iff (other : ∀ c ∈ text, c ∉ markers) :
    Bracketed n (text ++ rest) ↔ Bracketed n rest := by
  induction text with
  | nil => rfl
  | cons c text ih =>
    obtain ⟨here, further⟩ := List.forall_mem_cons.mp other
    rw [List.cons_append, bracketed_plain_iff here, ih further]

theorem not_mem_markers_of_blank (blank : c ∈ blanks) : c ∉ markers :=
  not_mem_of_apart (by decide) blank

/-- **Blanks and comments count nothing.** -/
theorem bracketed_trivia_iff (trivia : Trivia text rest) :
    Bracketed n (text ++ rest) ↔ Bracketed n rest := by
  induction trivia with
  | nil => rfl
  | blank mem _ ih => rw [List.cons_append, bracketed_plain_iff (not_mem_markers_of_blank mem), ih]
  | comment isComment _ ih => rw [List.append_assoc, bracketed_comment_iff isComment, ih]

/-! ## Texts before a closing parenthesis -/

/-- The parentheses of a text come out even after some open ones, and also if one more is open and
closed after the text. -/
structure Enclosed (n : Nat) (text : List Char) : Prop where
  bracketed : Bracketed n text
  closed : Bracketed (n + 1) (text ++ [')'])

/-- A text with a parenthesis around it is enclosed, if its own parentheses come out even. -/
theorem enclosed_of_parentheses (h : Bracketed 0 text)
    (around : Bracketed 0 ('(' :: (text ++ [')']))) : Enclosed 0 text :=
  ⟨h, bracketed_opens_iff.mp around⟩

namespace Enclosed

/-- A stretch that counts the same in front of any rest. -/
theorem mono {m : Nat} {taken : List Char} (h : Enclosed n (taken ++ rest))
    (first : Bracketed n (taken ++ rest) → Bracketed m rest)
    (second : Bracketed (n + 1) (taken ++ (rest ++ [')'])) → Bracketed (m + 1) (rest ++ [')'])) :
    Enclosed m rest :=
  ⟨first h.bracketed, second (List.append_assoc taken rest [')'] ▸ h.closed)⟩

theorem eq_zero_of_nil (h : Enclosed n []) : n = 0 :=
  bracketed_nil_iff.mp h.bracketed

theorem append (h : Enclosed n (text ++ rest)) (other : ∀ c ∈ text, c ∉ markers) :
    Enclosed n rest :=
  h.mono (bracketed_append_iff other).mp (bracketed_append_iff other).mp

theorem opens (h : Enclosed n (['('] ++ rest)) : Enclosed (n + 1) rest :=
  h.mono bracketed_opens_iff.mp bracketed_opens_iff.mp

theorem closes (h : Enclosed (n + 1) ([')'] ++ rest)) : Enclosed n rest :=
  h.mono bracketed_closes_iff.mp bracketed_closes_iff.mp

theorem quoted (h : Enclosed n (quote :: (body ++ [quote]) ++ rest))
    (isQuote : quote = '"' ∨ quote = '\'') (quotable : Quotable quote body) : Enclosed n rest := by
  refine h.mono (fun counted => ?_) fun counted => ?_
  · refine (bracketed_quoted_iff isQuote quotable).mp ?_
    rwa [List.cons_append, List.append_assoc] at counted
  · refine (bracketed_quoted_iff isQuote quotable).mp ?_
    rwa [List.cons_append, List.append_assoc] at counted

/-- In a solid text that is enclosed a stroke is followed by neither mark of a comment. -/
theorem noMark_of_stroke (h : Enclosed n ('/' :: rest)) (solid : Solid ('/' :: rest)) :
    ∀ c, rest.head? = some c → c ≠ '/' ∧ c ≠ '*' := by
  rcases h.bracketed.of_stroke with ⟨comment, after, same, isComment, -⟩ | ⟨noMark, -⟩
  · exact absurd isComment (solid.noComment comment after same)
  · exact noMark

theorem stroke (h : Enclosed n ('/' :: rest)) (solid : Solid ('/' :: rest)) : Enclosed n rest := by
  have noMark := h.noMark_of_stroke solid
  refine mono (show Enclosed n (['/'] ++ rest) from h) (bracketed_stroke_iff noMark).mp
    (bracketed_stroke_iff fun c head => ?_).mp
  cases rest with
  | nil =>
    obtain rfl := Option.some.inj head
    decide
  | cons d rest => exact noMark c head

/-- **Solid text stays solid** before a closing parenthesis: no comment begins at its end. -/
theorem solid (h : Enclosed n text) (solid : Solid text) (tail : List Char) :
    Solid (text ++ ')' :: tail) := by
  cases text with
  | nil =>
    constructor
    · intro c head
      obtain rfl := Option.some.inj head
      decide
    · intro comment rest split isComment
      obtain ⟨_, _, -, rfl⟩ := isComment.exists_eq
      exact absurd (List.cons.inj split).1 (by decide)
  | cons c text =>
    refine ⟨solid.noBlank, fun comment rest split isComment => ?_⟩
    obtain ⟨mark, more, isMark, rfl⟩ := isComment.exists_eq
    obtain ⟨rfl, follows⟩ := List.cons.inj split
    have noMark := h.noMark_of_stroke solid
    cases text with
    | nil =>
      obtain ⟨rfl, -⟩ := List.cons.inj follows
      exact absurd isMark (by decide)
    | cons d text =>
      obtain ⟨rfl, -⟩ := List.cons.inj follows
      obtain ⟨noStroke, noStar⟩ := noMark d rfl
      exact absurd isMark (not_or.mpr ⟨noStroke, noStar⟩)

/-- **What is skipped in an enclosed text is skipped before a closing parenthesis**: no comment is
left open at its end. -/
theorem trivia (h : Enclosed n (text ++ rest)) (trivia : Trivia text rest) (tail : List Char) :
    Trivia text (rest ++ ')' :: tail) ∧ Enclosed n rest := by
  induction trivia with
  | nil => exact ⟨.nil _, h⟩
  | @blank c text rest mem _ ih =>
    have other : ∀ d ∈ [c], d ∉ markers :=
      List.forall_mem_singleton.mpr (not_mem_markers_of_blank mem)
    obtain ⟨skipped, enclosed⟩ := ih (append h other)
    exact ⟨.blank mem skipped, enclosed⟩
  | @comment first text rest isComment _ ih =>
    rw [List.append_assoc] at h
    have continued : ∀ more, Comment first (text ++ rest ++ ')' :: more) := by
      intro more
      cases isComment with
      | block inside => exact .block inside
      | @line body _ inside ends =>
        cases follows : text ++ rest with
        | cons d after =>
          rw [follows] at ends
          exact .line inside ends
        | nil =>
          -- the comment would go on to the parenthesis, which then closes nothing
          have whole : Comment ('/' :: '/' :: (body ++ [')'])) [] :=
            .line (List.forall_mem_append.mpr
              ⟨inside, List.forall_mem_singleton.mpr (by decide)⟩) fun _ head => nomatch head
          have closed := h.closed
          rw [follows, List.append_nil, ← List.append_nil (_ ++ [')'])] at closed
          exact nomatch bracketed_nil_iff.mp ((bracketed_comment_iff whole).mp closed)
    obtain ⟨skipped, enclosed⟩ := ih (h.mono (bracketed_comment_iff isComment).mp
      (bracketed_comment_iff (continued [])).mp)
    refine ⟨.comment ?_ skipped, enclosed⟩
    rw [← List.append_assoc]
    exact continued tail

end Enclosed

end Text

end ScriptTrace
