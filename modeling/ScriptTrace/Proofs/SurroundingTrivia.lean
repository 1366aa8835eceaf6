import ScriptTrace.Proofs.GrammarTermination
import ScriptTrace.Proofs.InertCode
import ScriptTrace.Proofs.Outline
import ScriptTrace.Proofs.SideBySide
import ScriptTrace.Proofs.SkippedText
import ScriptTrace.Proofs.SourceStretches

/-!
# Blanks and comments around a script

A script may have blanks and comments in front of it, and blanks after it.  Neither changes what the
script is: it is accepted with them exactly if it is accepted without them, its program is the same
up to the offsets, and its trace is the same.

Both are shown by matching the two texts side by side, with two different comparisons.

* In front (`further`): after what is skipped at the beginning, both matches go on with the same
  text at different offsets.  Only one rule asks for an offset, the one for whole scripts, and it
  asks before anything is skipped.
* At the end (`longer`): the second text goes on with blanks where the first one ends, until
  something is skipped that ends with the text; from there on both have ended.  Words and string
  literals are compared as a whole, since where blanks are not skipped within them a comparison of
  places says too little.

What is built from the two trees is the same up to the offsets, since the trees have the same
outline (`ScriptTrace.Proofs.Outline`), and the trace of a program does not depend on its offsets,
since it is the trace of what is left of it without them (`ScriptTrace.Proofs.InertCode`).

* `further`, `longer`: the two comparisons.
* `scriptsAlike_of_padding`, `scriptsAlike_of_blanks`: the trees of the two scripts.
* `surrounding_trivia_insignificant`: the result for scripts.
-/

namespace ScriptTrace

open Peg ScriptTrace.Language

/-! ## Offsets -/

/-- The same text at a later offset. -/
def Peg.Place.shift (d : Nat) (p : Place) : Place :=
  ⟨p.offset + d, p.rest⟩

theorem Peg.Place.eat?_shift (d : Nat) (p : Place) (chars : List Char) :
    (p.shift d).eat? chars = (p.eat? chars).map (Place.shift d) := by
  induction chars generalizing p with
  | nil => rfl
  | cons c chars ih =>
    obtain ⟨offset, _ | ⟨e, rest⟩⟩ := p
    · rfl
    · have moved : Place.after (offset + d) e rest = (Place.after offset e rest).shift d := by
        simp only [Place.after, Place.shift, Nat.add_right_comm]
      by_cases same : c = e
      · simp only [Place.shift, Place.eat?, if_pos same]
        rw [moved, ih]
      · simp only [Place.shift, Place.eat?, if_neg same, Option.map_none]

namespace Language

/-- A text and the same text at a later offset. -/
def further (d : Nat) : Comparison Rule where
  places p p' := p' = p.shift d
  nodes xs ys := outlines (· + d) xs = outlines id ys

/-- The leaves that do not ask for an offset: all but one atom and one rule. -/
def isPlaceless : Pattern Rule → Bool
  | .text _ | .char _ | .atEnd => true
  | .rule name => name != .script
  | _ => false

/-- **Matching does not depend on the offset.** -/
theorem keeps_further (d : Nat) : (further d).Keeps grammar fun _ => isPlaceless where
  nil := rfl
  append := outlines_append
  atom {mode a} known notRule := by
    rintro p _ outcome rfl evaluates
    cases evaluates with
    | @text _ chars _ q eaten =>
      have eaten' : (p.shift d).eat? chars = some (q.shift d) := by
        rw [Place.eat?_shift, eaten, Option.map_some]
      exact ⟨_, Grammar.Evaluates.gives (.text eaten'), .matched rfl rfl⟩
    | @textFailed _ chars _ refused =>
      have refused' : (p.shift d).eat? chars = none := by
        rw [Place.eat?_shift, refused, Option.map_none]
      exact ⟨_, Grammar.Evaluates.gives (.textFailed refused'), .failed⟩
    | char inside =>
      refine ⟨_, Grammar.Evaluates.gives (.char inside), .matched rfl ?_⟩
      simp only [further, Place.after, Place.shift, Nat.add_right_comm]
    | charFailed outside => exact ⟨_, Grammar.Evaluates.gives (.charFailed outside), .failed⟩
    | atEnd ends => exact ⟨_, Grammar.Evaluates.gives (.atEnd ends), .matched rfl rfl⟩
    | atEndFailed earlier => exact ⟨_, Grammar.Evaluates.gives (.atEndFailed earlier), .failed⟩
    | rule | ruleFailed => exact absurd rfl (notRule _)
    | _ => exact absurd known Bool.false_ne_true
  rule {mode name} known := by
    have inside : name = .script ∨ (grammar.body name).walks isPlaceless = true := by
      cases name <;> decide
    refine .inr ⟨inside.resolve_left (bne_iff_ne.mp known), ?_⟩
    rintro p _ q _ xs ys rfl rfl same
    refine outlines_nodesOf rfl rfl (fun _ => ?_) same
    simp only [Place.upTo, Place.shift, Nat.add_sub_add_right]
  trivia := .inr (by decide)

/-! ## Whole scripts -/

/-- What follows the beginning of a script. -/
def scriptParts : Pattern Rule :=
  .seq (.many (.rule .statement)) (.rule .endOfInput)

/-- Both scripts are refused, or both are matched and what stands in their trees has the same
outline. -/
inductive ScriptsAlike (f f' : Nat → Nat) : Outcome Rule → Outcome Rule → Prop
  | failed : ScriptsAlike f f' .failed .failed
  | matched {tree tree' : Node Rule} {q q' : Place}
      (same : outlines f tree.children = outlines f' tree'.children) :
      ScriptsAlike f f' (.matched [tree] q) (.matched [tree'] q')

theorem ScriptsAlike.symm {f f' : Nat → Nat} {outcome outcome' : Outcome Rule}
    (h : ScriptsAlike f f' outcome outcome') : ScriptsAlike f' f outcome' outcome := by
  cases h with
  | failed => exact .failed
  | matched same => exact .matched same.symm

theorem exists_tree_of_parts {source : List Char} {nodes : List (Node Rule)} {q : Place}
    (parts : grammar.GivesNext .free scriptParts ⟨0, source⟩ (.matched nodes q)) :
    ∃ tree, tree.children = nodes ∧ (grammar.read .script source).1 = .matched [tree] q := by
  have body : grammar.Gives .free (grammar.body .script) ⟨0, source⟩ (.matched nodes q) :=
    (Grammar.gives_atStart source).seq_next parts
  exact ⟨_, rfl, (ranked.gives_read .script source).2.unique (Grammar.Gives.rule body)⟩

theorem read_eq_failed_of_parts {source : List Char}
    (parts : grammar.GivesNext .free scriptParts ⟨0, source⟩ .failed) :
    (grammar.read .script source).1 = .failed := by
  have body : grammar.Gives .free (grammar.body .script) ⟨0, source⟩ .failed :=
    (Grammar.gives_atStart source).seq_next parts
  exact (ranked.gives_read .script source).2.unique (Grammar.Gives.rule_failed body)

/-- Scripts are alike if what follows their beginnings goes the same way. -/
theorem scriptsAlike_of_parts {C : Comparison Rule} {f f' : Nat → Nat} {source source' : List Char}
    (nodes : ∀ xs ys, C.nodes xs ys → outlines f xs = outlines f' ys)
    (parts : ∀ outcome, grammar.Evaluates (.next .free scriptParts) ⟨0, source⟩ outcome →
      ∃ outcome', grammar.GivesNext .free scriptParts ⟨0, source'⟩ outcome' ∧
        outcome.Alike C outcome') :
    ScriptsAlike f f' (grammar.read .script source).1 (grammar.read .script source').1 := by
  have fits : (Goal.next .free scriptParts).Fits grammar profile grammar.rules.length :=
    ⟨by decide, Nat.le_refl _, fun _ => ranked.two_le_length⟩
  obtain ⟨outcome, evaluates⟩ := Grammar.exists_evaluates (ranked.acc_asks (p := ⟨0, source⟩) fits)
  obtain ⟨outcome', gives, alike⟩ := parts outcome evaluates
  cases alike with
  | failed =>
    rw [read_eq_failed_of_parts evaluates.gives, read_eq_failed_of_parts gives]
    exact .failed
  | matched same _ =>
    obtain ⟨tree, rfl, read⟩ := exists_tree_of_parts evaluates.gives
    obtain ⟨tree', rfl, read'⟩ := exists_tree_of_parts gives
    rw [read, read']
    exact .matched (nodes _ _ same)

/-- Something is always skipped, if only nothing. -/
theorem exists_trivia_of_evaluates {p : Place} {outcome : Outcome Rule}
    (h : grammar.Evaluates (.pattern .atomic grammar.trivia) p outcome) :
    ∃ gap q, outcome = .matched [] q ∧ p.Reaches gap q ∧ Text.Trivia gap q.rest ∧
      Text.Solid q.rest := by
  cases outcome with
  | matched nodes q =>
    have matched := Grammar.Gives.matches h.gives
    obtain ⟨rfl, gap, reaches, trivia⟩ := trivia_of_matches matched
    exact ⟨gap, q, rfl, reaches, trivia, solid_of_trivia matched⟩
  | failed =>
    rw [trivia_eq] at h
    cases h
  | exhausted => exact absurd rfl h.ne_exhausted

/-- **A script with blanks and comments in front of it** is matched as it is without them, with all
offsets moved on. -/
theorem scriptsAlike_of_padding {front : List Char} (padding : Text.Padding front)
    (source : List Char) :
    ScriptsAlike (· + Text.byteLength front) id (grammar.read .script source).1
      (grammar.read .script (front ++ source)).1 := by
  refine scriptsAlike_of_parts (C := further (Text.byteLength front)) (fun _ _ same => same) ?_
  intro outcome evaluates
  cases evaluates with
  | nextTight tight => exact absurd rfl tight
  | @next _ _ q _ _ skipped item =>
    obtain ⟨gap, _, same, reaches, trivia, solid⟩ := exists_trivia_of_evaluates skipped
    obtain ⟨rfl, rfl⟩ := Outcome.matched.inj same
    have whole : Text.Trivia (front ++ gap) q.rest := (padding.trivia _).append trivia
    have skipped' := gives_trivia whole solid 0
    have place : (⟨0 + Text.byteLength (front ++ gap), q.rest⟩ : Place) =
        q.shift (Text.byteLength front) := by
      rw [Place.shift, reaches.offset_eq, Text.byteLength_append]
      simp only [Nat.zero_add, Nat.add_comm]
    have source_eq : front ++ gap ++ q.rest = front ++ source := by
      rw [List.append_assoc, show source = gap ++ q.rest from reaches.rest_eq]
    rw [place, source_eq] at skipped'
    obtain ⟨outcome', gives, alike⟩ :=
      (keeps_further (Text.byteLength front)).steady (by decide) rfl item
    exact ⟨_, Grammar.givesNext_of_trivia skipped' gives, (keeps_further _).prepend rfl alike⟩
  | nextFailed skipped =>
    obtain ⟨_, _, same, -⟩ := exists_trivia_of_evaluates skipped
    exact nomatch same

/-! ## Blanks at the end -/

/-- A text and the same text with blanks at its end, which are there until they are skipped. -/
def longer (tail : List Char) : Comparison Rule where
  places p p' := p'.rest = p.rest ++ tail ∨ p.rest = [] ∧ p'.rest = []
  nodes xs ys := outlines (fun _ => 0) xs = outlines (fun _ => 0) ys

/-- A text and the same text with more after it. -/
def continued (more : List Char) : Comparison Rule where
  places := Place.ContinuedBy more
  nodes xs ys := outlines (fun _ => 0) xs = outlines (fun _ => 0) ys

/-- The words: names, numerals, reserved words and operators. -/
def leafRules : List Rule :=
  [.identifier, .identifierName, .kwFunction, .kwIf, .kwElse, .kwWhile, .kwFor, .kwReturn,
    .variableKind, .numericLiteral, .booleanLiteral, .nullLiteral, .unaryOperator, .binaryOperator]

/-- Rules that are only used inside of words, string literals and comments, or for whole scripts. -/
def innerRules : List Rule :=
  [.script, .endOfInput, .whitespace, .comment, .lineTerminator, .identifierStart, .identifierPart,
    .reservedWord, .doubleStringCharacters, .singleStringCharacters, .escapeSequence]

/-- Whether a pattern is a choice between texts. -/
def isTextChoice : Pattern Rule → Bool
  | .text _ => true
  | .choice a b => isTextChoice a && isTextChoice b
  | _ => false

/-- The leaves that blanks cannot be part of, where blanks are skipped. -/
def isBlankless : Mode → Pattern Rule → Bool
  | .free, .text chars => chars != [] && chars.all fun c => !Text.blanks.contains c
  | .free, .rule name => !innerRules.contains name
  | _, _ => false

section Longer

variable {tail : List Char} {first : Char}

theorem steady_text {chars : List Char} (nonempty : chars ≠ []) (foreign : first ∉ chars)
    (mode : Mode) : grammar.Steady (longer (first :: tail)) (.pattern mode (.text chars)) := by
  intro p p' outcome here evaluates
  cases evaluates with
  | @text _ _ _ q eaten =>
    obtain ⟨rest_eq, -⟩ := Place.eat?_eq_some_iff.mp eaten
    rcases here with continued | ⟨ends, -⟩
    · rw [rest_eq, List.append_assoc] at continued
      have taken : grammar.Takes mode (.text chars) (chars ++ (q.rest ++ first :: tail))
          (q.rest ++ first :: tail) (· = []) := Grammar.takes_text _ _
      obtain ⟨_, stop, rfl, gives⟩ := taken p'.offset
      rw [← continued] at gives
      exact ⟨_, gives, .matched rfl (.inl rfl)⟩
    · rw [ends] at rest_eq
      exact absurd (List.append_eq_nil_iff.mp rest_eq.symm).1 nonempty
  | textFailed refused =>
    refine ⟨.failed, Grammar.refuses_text ?_ p'.offset, .failed⟩
    intro begins
    rcases here with continued | ⟨-, ends⟩
    · rw [continued] at begins
      obtain ⟨rest, rest_eq⟩ := isPrefix_of_not_mem foreign begins
      have eaten : p.eat? chars = some ⟨p.offset + Text.byteLength chars, rest⟩ :=
        Place.eat?_eq_some_iff.mpr ⟨rest_eq.symm, rfl⟩
      exact nomatch refused.symm.trans eaten
    · rw [ends] at begins
      exact nonempty (List.prefix_nil.mp begins)

/-- What a choice between texts gives does not depend on whether blanks are skipped. -/
theorem exists_gives_of_isTextChoice {pattern : Pattern Rule} (h : isTextChoice pattern = true)
    (p : Place) :
    ∃ outcome, outcome ≠ .exhausted ∧ ∀ mode, grammar.Gives mode pattern p outcome := by
  induction pattern with
  | text chars =>
    refine ⟨_, ?_, fun mode => Grammar.gives_text chars p⟩
    cases p.eat? chars <;> nofun
  | choice a b ihFirst ihSecond =>
    obtain ⟨isFirst, isSecond⟩ := Bool.and_eq_true_iff.mp h
    obtain ⟨outcome, settled, gives⟩ := ihFirst isFirst
    cases outcome with
    | matched nodes q => exact ⟨_, settled, fun mode => (gives mode).choice b⟩
    | failed =>
      obtain ⟨outcome, settled', gives'⟩ := ihSecond isSecond
      exact ⟨outcome, settled', fun mode => (gives mode).choice_of_failed (gives' mode)⟩
    | exhausted => exact absurd rfl settled
  | _ => exact nomatch h

/-- Words are matched as if blanks were not skipped: either they are not, or the word is a single
text. -/
theorem gives_leaf_iff {name : Rule} (mem : name ∈ leafRules) {p : Place} {outcome : Outcome Rule} :
    grammar.Gives ((grammar.kind name).inner .free) (grammar.body name) p outcome ↔
      grammar.Gives .atomic (grammar.body name) p outcome := by
  have kinds : ∀ name ∈ leafRules,
      grammar.kind name = .atomic ∨ isTextChoice (grammar.body name) = true := by decide
  rcases kinds name mem with kind | texts
  · rw [kind]
    rfl
  · obtain ⟨answer, -, gives⟩ := exists_gives_of_isTextChoice texts p
    constructor
    · intro h
      rw [h.unique (gives _)]
      exact gives .atomic
    · intro h
      rw [h.unique (gives .atomic)]
      exact gives _

/-- Where the same is left after two stretches, up to what follows, they are the same stretch. -/
theorem upTo_eq_of_continued {p q p' q' : Place} {taken taken' : List Char}
    (reaches : p.Reaches taken q) (reaches' : p'.Reaches taken' q')
    (here : p'.rest = p.rest ++ tail) (after : q'.rest = q.rest ++ tail) :
    p.upTo q.offset = p'.upTo q'.offset := by
  rw [reaches.upTo_eq, reaches'.upTo_eq]
  have same : taken' ++ (q.rest ++ tail) = taken ++ (q.rest ++ tail) :=
    calc taken' ++ (q.rest ++ tail) = p'.rest := by rw [reaches'.rest_eq, after]
      _ = taken ++ (q.rest ++ tail) := by rw [here, reaches.rest_eq, List.append_assoc]
  exact (List.append_cancel_right same).symm

theorem ignores_blank {name : Rule} (mem : name ∈ leafRules) (blank : first ∈ Text.blanks) :
    (grammar.body name).ignores first (grammar.ignores first 3) = true := by
  have all : leafRules.all (fun name => Text.blanks.all fun c =>
      (grammar.body name).ignores c (grammar.ignores c 3)) = true := by decide
  exact List.all_eq_true.mp (List.all_eq_true.mp all name mem) first blank

/-- What a word is matched as does not depend on a character after it that its rule has no use
for. -/
theorem exists_sim_leaf {name : Rule} (mem : name ∈ leafRules)
    (ignored : (grammar.body name).ignores first (grammar.ignores first 3) = true) {p : Place}
    {outcome : Outcome Rule}
    (h : grammar.Evaluates (.pattern ((grammar.kind name).inner .free) (grammar.body name)) p
      outcome) (offset : Nat) :
    ∃ outcome', outcome.Sim (Place.ContinuedBy (first :: tail)) outcome' ∧
      grammar.Gives ((grammar.kind name).inner .free) (grammar.body name)
        ⟨offset, p.rest ++ first :: tail⟩ outcome' := by
  obtain ⟨outcome', sim, gives⟩ :=
    ((gives_leaf_iff mem).mp h.gives).sim ignored h.ne_exhausted tail offset
  exact ⟨outcome', sim, (gives_leaf_iff mem).mpr gives⟩

/-- At the end of both texts, a pattern that refuses the empty text fails in both. -/
theorem alike_of_ends {tail : List Char} {pattern : Pattern Rule} {p p' : Place}
    {outcome : Outcome Rule} (refused : grammar.Refuses .free pattern []) (ends : p.rest = [])
    (ends' : p'.rest = []) (evaluates : grammar.Evaluates (.pattern .free pattern) p outcome) :
    ∃ outcome', grammar.Gives .free pattern p' outcome' ∧ outcome.Alike (longer tail) outcome' := by
  obtain ⟨offset, rest⟩ := p
  obtain ⟨offset', rest'⟩ := p'
  obtain rfl : rest = [] := ends
  obtain rfl : rest' = [] := ends'
  rw [Grammar.Gives.unique evaluates.gives (refused offset)]
  exact ⟨_, refused offset', .failed⟩

/-- A word ends before a character that its rule has no use for as it does at the end of the
text. -/
theorem exists_alike_leaf {name : Rule} (mem : name ∈ leafRules)
    (ignored : (grammar.body name).ignores first (grammar.ignores first 3) = true) {p p' : Place}
    {outcome : Outcome Rule} (here : p'.rest = p.rest ++ first :: tail)
    (evaluates : grammar.Evaluates (.pattern .free (.rule name)) p outcome) :
    ∃ outcome', grammar.Gives .free (.rule name) p' outcome' ∧
      outcome.Alike (continued (first :: tail)) outcome' := by
  obtain ⟨offset', rest'⟩ := p'
  obtain rfl : rest' = p.rest ++ first :: tail := here
  cases evaluates with
  | rule body =>
    obtain ⟨outcome', sim, gives⟩ := exists_sim_leaf mem ignored body offset'
    cases sim with
    | matched _ after =>
      obtain ⟨taken, reaches⟩ := body.exists_reaches
      obtain ⟨taken', reaches'⟩ := gives.matches.reaches
      refine ⟨_, Grammar.Gives.rule gives, .matched ?_ after⟩
      exact outlines_nodesOf rfl rfl
        (fun _ => upTo_eq_of_continued reaches reaches' rfl after) rfl
  | ruleFailed body =>
    obtain ⟨outcome', sim, gives⟩ := exists_sim_leaf mem ignored body offset'
    cases sim with
    | failed => exact ⟨_, Grammar.Gives.rule_failed gives, .failed⟩

/-- **A word ends before a blank as it does at the end of the text.** -/
theorem steady_leaf {name : Rule} (mem : name ∈ leafRules) (blank : first ∈ Text.blanks) :
    grammar.Steady (longer (first :: tail)) (.pattern .free (.rule name)) := by
  intro p p' outcome here evaluates
  rcases here with continued | ⟨ends, ends'⟩
  · obtain ⟨_, gives, alike⟩ :=
      exists_alike_leaf mem (ignores_blank mem blank) continued evaluates
    cases alike with
    | failed => exact ⟨_, gives, .failed⟩
    | matched same after => exact ⟨_, gives, .matched same (.inl after)⟩
  · have atEnd : ∀ name ∈ leafRules, avoids .free (.rule name) none = true := by decide
    exact alike_of_ends (refuses_end (atEnd name mem)) ends ends' evaluates

/-- A string literal that is matched is matched with anything after it, with the same characters. -/
theorem exists_gives_stringLiteral {p q p' : Place} {nodes : List (Node Rule)}
    (h : grammar.Gives .free (.rule .stringLiteral) p (.matched nodes q))
    (continued : p'.rest = p.rest ++ tail) :
    ∃ nodes' q', grammar.Gives .free (.rule .stringLiteral) p' (.matched nodes' q') ∧
      (longer tail).nodes nodes nodes' ∧ q'.rest = q.rest ++ tail := by
  obtain ⟨quote, text, isQuote, quotable, reaches, a, b, rfl⟩ := quoted_of_matches h.matches
  have rest_eq : p'.rest = quote :: (text ++ quote :: (q.rest ++ tail)) := by
    rw [continued, reaches.rest_eq]
    simp
  obtain ⟨nodes', stop, -, gives⟩ := takes_stringLiteral isQuote quotable (q.rest ++ tail) p'.offset
  rw [← rest_eq] at gives
  obtain ⟨quote', text', -, -, reaches', a', b', rfl⟩ := quoted_of_matches gives.matches
  have same : quote' :: (text' ++ [quote']) ++ (q.rest ++ tail) =
      quote :: (text ++ [quote]) ++ (q.rest ++ tail) := by
    rw [← show p'.rest = _ from reaches'.rest_eq, rest_eq]
    simp
  obtain ⟨rfl, same⟩ := List.cons.inj (List.append_cancel_right same)
  obtain rfl := List.append_cancel_right same
  exact ⟨_, _, gives, rfl, rfl⟩

/-- A string literal cannot end within blanks, since it ends with a quotation mark. -/
theorem gives_stringLiteral_failed (blank : Text.AllBlank tail) {p p' : Place}
    (h : grammar.Gives .free (.rule .stringLiteral) p .failed)
    (continued : p'.rest = p.rest ++ tail) :
    grammar.Gives .free (.rule .stringLiteral) p' .failed := by
  obtain ⟨outcome, settled, gives⟩ :=
    ranked.exists_gives (show (Pattern.rule Rule.stringLiteral).descends profile Rule.all.length
      Rule.all.length = true by decide) .free p'
  cases outcome with
  | failed => exact gives
  | exhausted => exact absurd rfl settled
  | matched nodes q =>
    obtain ⟨quote, text, isQuote, quotable, reaches, -⟩ := quoted_of_matches gives.matches
    have solid : quote ∉ Text.blanks := by
      rcases isQuote with rfl | rfl <;> decide
    have split : p.rest ++ tail = (quote :: text) ++ [quote] ++ q.rest := by
      rw [← continued, reaches.rest_eq]
      rfl
    obtain ⟨rest, rest_eq⟩ := Text.exists_of_append_blanks blank solid split
    have whole : p.rest = quote :: (text ++ quote :: rest) := by
      rw [rest_eq]
      simp
    obtain ⟨_, _, -, taken⟩ := takes_stringLiteral isQuote quotable rest p.offset
    rw [← whole] at taken
    exact nomatch h.unique taken

/-- **A string literal is compared as a whole.** -/
theorem steady_stringLiteral (blank : Text.AllBlank tail) :
    grammar.Steady (longer tail) (.pattern .free (.rule .stringLiteral)) := by
  intro p p' outcome here evaluates
  rcases here with continued | ⟨ends, ends'⟩
  · cases outcome with
    | matched nodes q =>
      obtain ⟨nodes', q', gives, same, after⟩ :=
        exists_gives_stringLiteral evaluates.gives continued
      exact ⟨_, gives, .matched same (.inl after)⟩
    | failed => exact ⟨_, gives_stringLiteral_failed blank evaluates.gives continued, .failed⟩
    | exhausted => exact absurd rfl evaluates.ne_exhausted
  · exact alike_of_ends (refuses_end (by decide)) ends ends' evaluates

/-- **Blanks at the end are skipped with what is skipped at the end**, and change nothing that is
skipped before. -/
theorem steady_trivia (blank : Text.AllBlank tail) :
    grammar.Steady (longer tail) (.pattern .atomic grammar.trivia) := by
  rintro p ⟨offset', rest'⟩ outcome here evaluates
  obtain ⟨gap, q, rfl, reaches, trivia, solid⟩ := exists_trivia_of_evaluates evaluates
  rcases here with rfl | ⟨ends, rfl⟩
  · rw [reaches.rest_eq]
    by_cases last : q.rest = []
    · rw [last, List.append_nil]
      rw [last] at trivia
      have gives := gives_trivia (trivia.append_blanks blank) Text.solid_nil offset'
      rw [List.append_nil] at gives
      exact ⟨_, gives, .matched rfl (.inr ⟨last, rfl⟩)⟩
    · rw [List.append_assoc]
      have trivia' := trivia.continued last tail
      have gives := gives_trivia trivia' (solid.append_blanks last blank) offset'
      exact ⟨_, gives, .matched rfl (.inl rfl)⟩
  · rw [reaches.rest_eq] at ends
    obtain ⟨-, last⟩ := List.append_eq_nil_iff.mp ends
    exact ⟨_, gives_trivia (.nil []) Text.solid_nil offset', .matched rfl (.inr ⟨last, rfl⟩)⟩

/-- **Matching goes on in the same way with blanks at the end of the text.** -/
theorem keeps_longer (blank : Text.AllBlank (first :: tail)) :
    (longer (first :: tail)).Keeps grammar isBlankless where
  nil := rfl
  append := outlines_append
  atom {mode a} known notRule := by
    have mem : first ∈ Text.blanks := blank first List.mem_cons_self
    match mode, a with
    | .free, .text chars =>
      obtain ⟨nonempty, foreign⟩ := Bool.and_eq_true_iff.mp known
      have outside : first ∉ chars := fun inside => Text.not_mem_of_apart foreign inside mem
      exact steady_text (bne_iff_ne.mp nonempty) outside .free
    | .free, .rule name => exact absurd rfl (notRule name)
  rule {mode name} known := by
    match mode with
    | .free =>
      have sorted : name ∈ innerRules ∨ name ∈ leafRules ∨ name = .stringLiteral ∨
          ((grammar.kind name).inner .free = .free ∧ name.isSpelled = false ∧
            (grammar.body name).walks (isBlankless .free) = true) := by
        cases name <;> decide
      have outer : name ∉ innerRules := by simpa [isBlankless] using known
      rcases sorted.resolve_left outer with leaf | rfl | ⟨inner, plain, walks⟩
      · exact .inl (steady_leaf leaf (blank first List.mem_cons_self))
      · exact .inl (steady_stringLiteral blank)
      · refine .inr ⟨by rwa [inner], fun p p' q q' xs ys _ _ same => ?_⟩
        exact outlines_nodesOf rfl rfl (fun spelled => nomatch plain.symm.trans spelled) same
  trivia := .inl (steady_trivia blank)

/-- **The end of a text is the end of the longer one too**: after what is skipped the longer text
has no blanks left. -/
theorem steady_endOfInput (blank : Text.AllBlank (first :: tail)) :
    grammar.Steady (longer (first :: tail)) (.next .free (.rule .endOfInput)) := by
  intro p p' outcome here evaluates
  cases evaluates with
  | nextTight tight => exact absurd rfl tight
  | @next _ _ q _ _ skipped item =>
    obtain ⟨_, trivia, alike⟩ := steady_trivia blank here skipped
    cases alike with
    | @matched _ _ _ q' nodes after =>
      have solid := solid_of_trivia (Grammar.Gives.matches trivia)
      have ends_iff : q'.rest = [] ↔ q.rest = [] := by
        rcases after with continued | ⟨ends, ends'⟩
        · rw [continued]
          constructor
          · intro none
            exact (List.append_eq_nil_iff.mp none).1
          · intro ends
            rw [continued, ends] at solid
            exact absurd (blank first List.mem_cons_self) (solid.noBlank first rfl)
        · exact iff_of_true ends' ends
      cases item with
      | @rule _ _ _ r inner body =>
        change grammar.Evaluates (.pattern .free .atEnd) q (.matched inner r) at body
        cases body with
        | atEnd ends =>
          have body' : grammar.Gives .free (grammar.body .endOfInput) q' (.matched [] q') :=
            Grammar.Evaluates.gives (.atEnd (ends_iff.mpr ends))
          refine ⟨_, Grammar.givesNext_of_trivia trivia (Grammar.Gives.rule body'), ?_⟩
          refine (keeps_longer blank).prepend nodes (.matched ?_ after)
          exact outlines_nodesOf rfl rfl nofun rfl
      | ruleFailed body =>
        change grammar.Evaluates (.pattern .free .atEnd) q .failed at body
        cases body with
        | atEndFailed earlier =>
          have body' : grammar.Gives .free (grammar.body .endOfInput) q' .failed :=
            Grammar.Evaluates.gives (.atEndFailed (mt ends_iff.mp earlier))
          exact ⟨_, Grammar.givesNext_of_trivia trivia (Grammar.Gives.rule_failed body'), .failed⟩
  | nextFailed skipped =>
    obtain ⟨_, _, same, -⟩ := exists_trivia_of_evaluates skipped
    exact nomatch same

/-- **A script with blanks at its end** is matched as it is without them, up to offsets. -/
theorem scriptsAlike_of_blanks (blank : Text.AllBlank (first :: tail)) (source : List Char) :
    ScriptsAlike (fun _ => 0) (fun _ => 0) (grammar.read .script source).1
      (grammar.read .script (source ++ first :: tail)).1 := by
  have keeps := keeps_longer blank
  have statements : grammar.Steady (longer (first :: tail))
      (.pattern .free (.many (.rule .statement))) := keeps.steady (by decide)
  have parts : grammar.Steady (longer (first :: tail)) (.next .free scriptParts) :=
    keeps.steady_next (steady_trivia blank) (keeps.steady_seq statements (steady_endOfInput blank))
  have here : (longer (first :: tail)).places ⟨0, source⟩ ⟨0, source ++ first :: tail⟩ := .inl rfl
  exact scriptsAlike_of_parts (fun _ _ same => same) fun _ evaluates => parts here evaluates

end Longer

end Language

/-! ## Programs and traces -/

section Scripts

variable {front source source' back : String} {program : Program}

/-- Scripts with alike trees have the same program up to the offsets. -/
theorem exists_program_of_alike {f f' : Nat → Nat}
    (alike : ScriptsAlike f f' (grammar.read .script source.toList).1
      (grammar.read .script source'.toList).1)
    (parsed : parseScript source = .ok program) :
    ∃ program', parseScript source' = .ok program' ∧
      program.recast (.moving f) = program'.recast (.moving f') := by
  generalize read : (grammar.read .script source.toList).1 = outcome at alike
  generalize read' : (grammar.read .script source'.toList).1 = outcome' at alike
  cases alike with
  | failed =>
    obtain ⟨_, _, _, matched, -⟩ := exists_node_of_parseScript parsed
    exact nomatch read.symm.trans matched
  | @matched tree tree' _ _ same =>
    have built : Program.ofNode tree = .ok program := by
      rw [parseScript_of_read read] at parsed
      cases built : Program.ofNode tree with
      | error error =>
        rw [built] at parsed
        exact nomatch parsed
      | ok built' =>
        rw [built] at parsed
        cases parsed
        rfl
    have grown : ∀ child ∈ tree.children, child.Grown grammar source.toList := by
      have whole := (Grammar.matches_of_read read).grown ⟨[], .refl _⟩ tree List.mem_cons_self
      cases whole with
      | mk _ _ _ each => exact each
    obtain ⟨program', built', recast⟩ := ofNode_of_outline grown same built
    refine ⟨program', ?_, recast⟩
    rw [parseScript_of_read read', built']
    rfl

theorem isAccepted_iff_of_alike {f f' : Nat → Nat}
    (alike : ScriptsAlike f f' (grammar.read .script source.toList).1
      (grammar.read .script source'.toList).1) :
    (∃ program, parseScript source' = .ok program) ↔
      ∃ program, parseScript source = .ok program := by
  constructor
  · rintro ⟨program, parsed⟩
    obtain ⟨program', parsed', -⟩ := exists_program_of_alike alike.symm parsed
    exact ⟨program', parsed'⟩
  · rintro ⟨program, parsed⟩
    obtain ⟨program', parsed', -⟩ := exists_program_of_alike alike parsed
    exact ⟨program', parsed'⟩

theorem scriptsAlike_append (padding : Text.Padding front.toList) :
    ScriptsAlike (· + Text.byteLength front.toList) id (grammar.read .script source.toList).1
      (grammar.read .script (front ++ source).toList).1 := by
  rw [String.toList_append]
  exact scriptsAlike_of_padding padding source.toList

theorem eq_empty_or_scriptsAlike (blank : Text.AllBlank back.toList) (source : String) :
    back = "" ∨ ScriptsAlike (fun _ => 0) (fun _ => 0) (grammar.read .script source.toList).1
      (grammar.read .script (source ++ back).toList).1 := by
  rw [String.toList_append]
  cases chars : back.toList with
  | nil => exact .inl (String.toList_eq_nil_iff.mp chars)
  | cons first tail =>
    rw [chars] at blank
    exact .inr (scriptsAlike_of_blanks blank source.toList)

/-- **Blanks and comments in front of a script** move the offsets of its program. -/
theorem parseScript_append_of_padding (padding : Text.Padding front.toList)
    (parsed : parseScript source = .ok program) :
    parseScript (front ++ source) =
      .ok (program.recast (.moving (· + Text.byteLength front.toList))) := by
  obtain ⟨program', parsed', same⟩ := exists_program_of_alike (scriptsAlike_append padding) parsed
  rw [parsed', same, Program.recast_id]

/-- **Blanks at the end of a script** change at most the offsets of its program. -/
theorem exists_program_of_blanks (blank : Text.AllBlank back.toList)
    (parsed : parseScript source = .ok program) :
    ∃ program', parseScript (source ++ back) = .ok program' ∧
      program.recast (.moving fun _ => 0) = program'.recast (.moving fun _ => 0) := by
  rcases eq_empty_or_scriptsAlike blank source with rfl | alike
  · exact ⟨program, (congrArg parseScript String.append_empty).trans parsed, rfl⟩
  · exact exists_program_of_alike alike parsed

theorem isAccepted_append_blanks_iff (blank : Text.AllBlank back.toList) (source : String) :
    (∃ program, parseScript (source ++ back) = .ok program) ↔
      ∃ program, parseScript source = .ok program := by
  rcases eq_empty_or_scriptsAlike blank source with rfl | alike
  · rw [String.append_empty]
  · exact isAccepted_iff_of_alike alike

theorem runSource_of_parsed (config : Config) (parsed : parseScript source = .ok program) :
    runSource config source = .ok (runProgram config program) := by
  rw [runSource, parsed]
  rfl

end Scripts

/-- **Blanks and comments around a script are insignificant.**  With blanks and comments in front of
it, or with blanks at its end, a script is accepted exactly if it is accepted without them.  In
front, they move every offset of the program by the bytes that they take; at the end, the program is
the same up to the offsets.  The trace is the same with both. -/
theorem surrounding_trivia_insignificant (front source back : String)
    (padding : Text.Padding front.toList) (blank : Text.AllBlank back.toList) :
    ((∃ program, parseScript (front ++ source) = .ok program) ↔
        ∃ program, parseScript source = .ok program) ∧
      ((∃ program, parseScript (source ++ back) = .ok program) ↔
        ∃ program, parseScript source = .ok program) ∧
      ∀ program, parseScript source = .ok program →
        parseScript (front ++ source) =
            .ok (program.recast (.moving (· + Text.byteLength front.toList))) ∧
          (∃ program', parseScript (source ++ back) = .ok program' ∧
            program'.recast (.moving fun _ => 0) = program.recast (.moving fun _ => 0)) ∧
          ∀ config, runSource config (front ++ source ++ back) = runSource config source := by
  refine ⟨isAccepted_iff_of_alike (scriptsAlike_append padding),
    isAccepted_append_blanks_iff blank source, fun program parsed => ?_⟩
  obtain ⟨program', parsed', same⟩ := exists_program_of_blanks blank parsed
  refine ⟨parseScript_append_of_padding padding parsed, ⟨program', parsed', same.symm⟩, ?_⟩
  intro config
  have both := parseScript_append_of_padding padding parsed'
  rw [← String.append_assoc] at both
  have traces :=
    calc runProgram config (program'.recast (.moving (· + Text.byteLength front.toList)))
        = runProgram config (program'.recast (.moving fun _ => 0)) := by
          rw [runProgram_recast, runProgram_recast]
      _ = runProgram config program := by rw [← same, runProgram_recast]
  rw [runSource_of_parsed config both, traces, runSource_of_parsed config parsed]

/-- A script with the mark of a comment in a string and with a comment up to its end, after a
comment and a blank of two bytes, and before the end of the line and a blank. -/
theorem remarked_script_unchanged :
    Text.Padding "/* a */\u00A0".toList ∧ Text.AllBlank "\n ".toList ∧
      ∃ program, parseScript "var a='/*';f();//" = .ok program ∧
        parseScript ("/* a */\u00A0" ++ "var a='/*';f();//") =
          .ok (program.recast (.moving (· + 9))) ∧
        (∃ program', parseScript ("var a='/*';f();//" ++ "\n ") = .ok program' ∧
          program'.recast (.moving fun _ => 0) = program.recast (.moving fun _ => 0)) ∧
        runSource {} ("/* a */\u00A0" ++ "var a='/*';f();//" ++ "\n ") =
          runSource {} "var a='/*';f();//" := by
  have comment : Text.Padding ['/', '*', ' ', 'a', ' ', '*', '/', '\u00A0'] :=
    @Text.Padding.comment [' ', 'a', ' '] _ (by decide) (.blank (by decide) .nil)
  have padding : Text.Padding "/* a */\u00A0".toList := comment
  have allBlank : Text.AllBlank ['\n', ' '] :=
    List.forall_mem_cons.mpr ⟨by decide, List.forall_mem_singleton.mpr (by decide)⟩
  have blank : Text.AllBlank "\n ".toList := allBlank
  obtain ⟨program, parsed, -⟩ := exists_ok_of_toOption_map
    (x := parseScript "var a='/*';f();//") (f := fun _ => ()) (b := ()) (by decide +kernel)
  obtain ⟨-, -, unchanged⟩ := surrounding_trivia_insignificant _ "var a='/*';f();//" _ padding blank
  obtain ⟨moved, same, traces⟩ := unchanged program parsed
  exact ⟨padding, blank, program, parsed, moved, same, traces {}⟩

end ScriptTrace
