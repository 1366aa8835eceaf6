import ScriptTrace.Proofs.Bracketing
import ScriptTrace.Proofs.ExpressionSyntax
import ScriptTrace.Proofs.SurroundingTrivia

/-!
# Expressions before a closing parenthesis

A text that the rule for expressions takes to its end is taken in the same way when a closing
parenthesis and more text follow it.  This is not a matter of looking at the next character, as it
is for words: while the text is matched many rules ask for a closing parenthesis, and at the end of
the text alone they fail.  But wherever a closing parenthesis is asked for, one has been opened
before, and since the parentheses of the text come out even, the text has not ended there.

So both matches are followed side by side with the number of open parentheses as a state
(`Depth`, `depthStep`).  This is done twice.

* A text is compared with itself (`counting`).  Every leaf that is matched counts in the text what
  the state says, so if the text is matched to its end, its parentheses come out even
  (`bracketed_of_accepts`, `bracketed_of_parseScript`).  There is one difficulty: a stroke is an
  operator also before a star, if no comment ends in the rest of the text.  But nothing is matched
  after it, since no operand begins with a star; so the state remembers that an operator has been
  taken.
* A text whose parentheses come out even is compared with the text with a closing parenthesis and
  more behind it (`enclosing`).

* `bracketed_of_accepts`, `enclosed_of_parseScript`: the parentheses of a text that is matched.
* `takes_enclosed`: an expression before a closing parenthesis.
-/

namespace ScriptTrace

open Peg ScriptTrace.Language

/-! ## What words take -/

/-- A pattern that has no use for a character takes a stretch without it, where blanks are not
skipped and no rule leaves a node. -/
theorem Peg.Grammar.Matches.of_ignores {ρ : Type} {g : Grammar ρ} {c : Char} {calls : Nat}
    {pattern : Pattern ρ} {p q : Place} {nodes : List (Node ρ)}
    (h : g.Matches .atomic pattern p nodes q)
    (ignored : pattern.ignores c (g.ignores c calls) = true) :
    nodes = [] ∧ ∃ taken, p.Reaches taken q ∧ c ∉ taken := by
  have join : ∀ {p p₁ p₂ q : Place} {taken gap further : List Char}, p.Reaches taken p₁ →
      c ∉ taken → p₁.Reaches gap p₂ → c ∉ gap → p₂.Reaches further q → c ∉ further →
      ∃ whole, p.Reaches whole q ∧ c ∉ whole := by
    intro p p₁ p₂ q taken gap further first notFirst skipped notSkipped second notSecond
    exact ⟨_, first.trans (skipped.trans second), by simp [notFirst, notSkipped, notSecond]⟩
  have ignored_gap : (g.gap .atomic).ignores c (g.ignores c 0) = true := rfl
  generalize tight : Mode.atomic = mode at h
  induction h generalizing calls with
  | @text _ chars _ _ eaten =>
    exact ⟨rfl, chars, eaten, by simpa [Pattern.ignores] using ignored⟩
  | @char _ k d _ _ inside eaten =>
    refine ⟨rfl, [d], eaten, ?_⟩
    rw [List.mem_singleton]
    rintro rfl
    simp [Pattern.ignores, inside] at ignored
  | atStart | atEnd => exact absurd ignored Bool.false_ne_true
  | @rule mode name _ _ nodes body ih =>
    subst tight
    cases calls with
    | zero => exact absurd ignored Bool.false_ne_true
    | succ calls =>
      have both : g.kind name ≠ .compound ∧ (g.body name).ignores c (g.ignores c calls) = true := by
        simpa [Pattern.ignores, Grammar.ignores] using ignored
      have inner : Mode.atomic = (g.kind name).inner .atomic := by
        cases kind : g.kind name <;> first | rfl | exact absurd kind both.1
      have outer : (g.kind name).outer .atomic = .atomic := by
        cases kind : g.kind name <;> first | rfl | exact absurd kind both.1
      obtain ⟨rfl, taken⟩ := ih both.2 inner
      refine ⟨?_, taken⟩
      rw [Grammar.nodesOf, if_neg fun kept => kept.2 outer]
  | seq _ _ _ ihFirst ihSkipped ihSecond =>
    subst tight
    obtain ⟨ignoredFirst, ignoredSecond⟩ := Bool.and_eq_true_iff.mp ignored
    obtain ⟨rfl, _, first, notFirst⟩ := ihFirst ignoredFirst rfl
    obtain ⟨rfl, _, skipped, notSkipped⟩ := ihSkipped ignored_gap rfl
    obtain ⟨rfl, _, second, notSecond⟩ := ihSecond ignoredSecond rfl
    exact ⟨rfl, join first notFirst skipped notSkipped second notSecond⟩
  | choiceFirst _ ih => exact ih (Bool.and_eq_true_iff.mp ignored).1 tight
  | choiceSecond _ ih => exact ih (Bool.and_eq_true_iff.mp ignored).2 tight
  | manyNil | optionalNone | absent => exact ⟨rfl, [], .refl _, List.not_mem_nil⟩
  | manyOne _ _ ih => exact ih (show Pattern.ignores c _ _ = true from ignored) tight
  | manyCons _ _ _ ihItem ihSkipped ihRest =>
    subst tight
    obtain ⟨rfl, _, first, notFirst⟩ := ihItem (show Pattern.ignores c _ _ = true from ignored) rfl
    obtain ⟨rfl, _, skipped, notSkipped⟩ := ihSkipped ignored_gap rfl
    obtain ⟨rfl, _, second, notSecond⟩ := ihRest ignored rfl
    exact ⟨rfl, join first notFirst skipped notSkipped second notSecond⟩
  | optionalSome _ ih => exact ih (show Pattern.ignores c _ _ = true from ignored) tight

section Parts

variable {ρ : Type} {g : Grammar ρ} {mode : Mode} {a b : Pattern ρ} {p r : Place}
variable {nodes : List (Node ρ)}

/-- The two parts of a sequence that is matched. -/
theorem Peg.Grammar.Evaluates.exists_of_seq
    (h : g.Evaluates (.pattern mode (.seq a b)) p (.matched nodes r)) :
    ∃ xs q ys, g.Evaluates (.pattern mode a) p (.matched xs q) ∧
      g.Evaluates (.next mode b) q (.matched ys r) ∧ nodes = xs ++ ys := by
  generalize whole : Outcome.matched nodes r = outcome at h
  cases h with
  | @seq _ _ _ _ q xs _ first second =>
    obtain ⟨ys, rfl, rfl⟩ := Matcher.eq_matched_of_prepend whole.symm
    exact ⟨xs, q, ys, first, second, rfl⟩
  | seqFailed _ => exact nomatch whole

/-- What is skipped before a pattern that is matched, and its match. -/
theorem Peg.Grammar.Evaluates.exists_of_next
    (h : g.Evaluates (.next .free b) p (.matched nodes r)) :
    ∃ xs q ys, g.Evaluates (.pattern .atomic g.trivia) p (.matched xs q) ∧
      g.Evaluates (.pattern .free b) q (.matched ys r) ∧ nodes = xs ++ ys := by
  generalize whole : Outcome.matched nodes r = outcome at h
  cases h with
  | nextTight tight => exact absurd rfl tight
  | @next _ _ q xs _ skipped item =>
    obtain ⟨ys, rfl, rfl⟩ := Matcher.eq_matched_of_prepend whole.symm
    exact ⟨xs, q, ys, skipped, item, rfl⟩
  | nextFailed _ => exact nomatch whole

end Parts

namespace Language

/-! ## The state -/

/-- How many parentheses are open, and whether an operator has just been taken. -/
structure Depth where
  opened : Nat
  awaits : Bool
  deriving DecidableEq

/-- The characters that count, and the star. -/
def counted : List Char :=
  '*' :: Text.markers

/-- What the leaves do with the state.  A rule that may match nothing cannot follow an operator. -/
def depthStep : Mode → Depth → Pattern Rule → Option Depth
  | .free, ⟨opened, _⟩, .text chars =>
    if chars = ['('] then some ⟨opened + 1, false⟩
    else if chars = [')'] then
      match opened with
      | 0 => none
      | opened + 1 => some ⟨opened, false⟩
    else if chars ≠ [] ∧ chars.all (fun c => !counted.contains c) then some ⟨opened, false⟩
    else none
  | .free, ⟨opened, awaits⟩, .rule name =>
    if name = .binaryOperator then if awaits then none else some ⟨opened, true⟩
    else if innerRules.contains name || awaits && profile.mayBeEmpty name then none
    else some ⟨opened, false⟩
  | _, _, _ => none

/-- The state with more parentheses open. -/
def Depth.under (d : Depth) (more : Nat) : Depth :=
  ⟨d.opened + more, d.awaits⟩

variable {d d' : Depth}

theorem depthStep_under {mode : Mode} {a : Pattern Rule} (more : Nat)
    (h : depthStep mode d a = some d') :
    depthStep mode (d.under more) a = some (d'.under more) := by
  obtain ⟨opened, awaits⟩ := d
  match mode, a with
  | .free, .text chars =>
    change depthStep .free ⟨opened + more, awaits⟩ (.text chars) = _
    simp only [depthStep] at h ⊢
    split at h
    · rename_i isOpen
      rw [if_pos isOpen, ← Option.some.inj h, Depth.under, Nat.add_right_comm]
    · rename_i notOpen
      rw [if_neg notOpen]
      split at h
      · rename_i isClose
        rw [if_pos isClose]
        cases opened with
        | zero => exact nomatch h
        | succ opened =>
          rw [Nat.add_right_comm, ← Option.some.inj h]
          rfl
      · rename_i notClose
        rw [if_neg notClose]
        obtain ⟨plain, same⟩ := Option.ite_none_right_eq_some.mp h
        rw [if_pos plain, ← Option.some.inj same]
        rfl
  | .free, .rule name =>
    change depthStep .free ⟨opened + more, awaits⟩ (.rule name) = _
    simp only [depthStep] at h ⊢
    split at h
    · rename_i isOperator
      rw [if_pos isOperator]
      obtain ⟨ready, same⟩ := Option.ite_none_left_eq_some.mp h
      rw [if_neg ready, ← Option.some.inj same]
      rfl
    · rename_i notOperator
      obtain ⟨outer, same⟩ := Option.ite_none_left_eq_some.mp h
      rw [if_neg notOperator, if_neg outer, ← Option.some.inj same]
      rfl

/-- Where a pattern leads does not depend on how many parentheses are open around it. -/
theorem track_under {mode : Mode} {a : Pattern Rule} (more : Nat)
    (h : a.track (depthStep mode) d = some d') :
    a.track (depthStep mode) (d.under more) = some (d'.under more) := by
  induction a generalizing d d' with
  | seq a b iha ihb =>
    obtain ⟨_, first, second⟩ := Option.bind_eq_some_iff.mp h
    exact Option.bind_eq_some_iff.mpr ⟨_, iha first, ihb second⟩
  | choice a b iha ihb =>
    obtain ⟨same, first⟩ := Option.ite_none_right_eq_some.mp h
    refine Option.ite_none_right_eq_some.mpr ⟨?_, iha first⟩
    rw [iha first, ihb (same.symm.trans first)]
  | many a ih | optional a ih | absent a ih =>
    obtain ⟨back, rfl⟩ := Tracking.Keeps.eq_of_repeated h
    exact if_pos (ih back)
  | _ => exact depthStep_under more h

/-- The rules are leaves, or their patterns lead where they do. -/
theorem track_body {name : Rule} {mode : Mode} (h : depthStep mode d (.rule name) = some d') :
    mode = .free ∧ (name ∈ leafRules ∨ name = .stringLiteral ∨
      (grammar.kind name).inner .free = .free ∧ name.isSpelled = false ∧
        (grammar.body name).track (depthStep .free) d = some d') := by
  obtain ⟨opened, awaits⟩ := d
  cases mode with
  | atomic | compound => exact nomatch h
  | free =>
    refine ⟨rfl, ?_⟩
    have sorted : name ∈ innerRules ∨ name ∈ leafRules ∨ name = .stringLiteral ∨
        (awaits && profile.mayBeEmpty name) = true ∨
        ((grammar.kind name).inner .free = .free ∧ name.isSpelled = false ∧
          (grammar.body name).track (depthStep .free) ⟨0, awaits⟩ = some ⟨0, false⟩) := by
      cases awaits <;> cases name <;> decide
    simp only [depthStep] at h
    split at h
    · rename_i isOperator
      rw [isOperator]
      exact .inl (by decide)
    · obtain ⟨outer, same⟩ := Option.ite_none_left_eq_some.mp h
      simp only [Bool.or_eq_true, not_or, List.contains_iff_mem] at outer
      rcases sorted with inner | leaf | string | empty | ⟨inner, plain, tracked⟩
      · exact absurd inner outer.1
      · exact .inl leaf
      · exact .inr (.inl string)
      · exact absurd empty outer.2
      · have there := track_under opened tracked
        simp only [Depth.under, Nat.zero_add] at there
        exact .inr (.inr ⟨inner, plain, there.trans same⟩)

/-- What a text does with the state. -/
theorem text_of_depthStep {chars : List Char} (h : depthStep .free d (.text chars) = some d') :
    (chars = ['('] ∧ d' = ⟨d.opened + 1, false⟩) ∨
      (chars = [')'] ∧ ∃ opened, d.opened = opened + 1 ∧ d' = ⟨opened, false⟩) ∨
      (chars ≠ [] ∧ (∀ c ∈ chars, c ∉ counted) ∧ d' = ⟨d.opened, false⟩) := by
  obtain ⟨opened, awaits⟩ := d
  simp only [depthStep] at h
  split at h
  · exact .inl ⟨‹_›, (Option.some.inj h).symm⟩
  · split at h
    · cases opened with
      | zero => exact nomatch h
      | succ opened => exact .inr (.inl ⟨‹_›, opened, rfl, (Option.some.inj h).symm⟩)
    · obtain ⟨⟨nonempty, plain⟩, same⟩ := Option.ite_none_right_eq_some.mp h
      have foreign : ∀ c ∈ chars, c ∉ counted := fun _ => Text.not_mem_of_apart plain
      exact .inr (.inr ⟨nonempty, foreign, (Option.some.inj same).symm⟩)

/-- What a rule does with the state. -/
theorem rule_of_depthStep {name : Rule} (h : depthStep .free d (.rule name) = some d') :
    (name = .binaryOperator ∧ d.awaits = false ∧ d' = ⟨d.opened, true⟩) ∨
      (name ≠ .binaryOperator ∧ d' = ⟨d.opened, false⟩) := by
  obtain ⟨opened, awaits⟩ := d
  simp only [depthStep] at h
  split at h
  · obtain ⟨ready, same⟩ := Option.ite_none_left_eq_some.mp h
    exact .inl ⟨‹_›, Bool.eq_false_iff.mpr ready, (Option.some.inj same).symm⟩
  · obtain ⟨-, same⟩ := Option.ite_none_left_eq_some.mp h
    exact .inr ⟨‹_›, (Option.some.inj same).symm⟩

/-! ## What the leaves take -/

section Leaves

variable {p q : Place} {nodes : List (Node Rule)}

/-- A word takes no character that counts. -/
theorem word_of_evaluates {name : Rule} (mem : name ∈ leafRules) (ne : name ≠ .binaryOperator)
    (h : grammar.Evaluates (.pattern .free (.rule name)) p (.matched nodes q)) :
    ∃ taken, p.Reaches taken q ∧ ∀ c ∈ taken, c ∉ Text.markers := by
  obtain ⟨taken, reaches⟩ := h.exists_reaches
  have all : leafRules.all (fun name => name == .binaryOperator || Text.markers.all fun c =>
      (grammar.body name).ignores c (grammar.ignores c 3)) = true := by decide
  have ignored := (Bool.or_eq_true_iff.mp (List.all_eq_true.mp all name mem)).resolve_left
    fun same => ne (beq_iff_eq.mp same)
  refine ⟨taken, reaches, fun c inside mark => ?_⟩
  cases h with
  | rule body =>
    obtain ⟨-, taken', reaches', foreign⟩ := Grammar.Matches.of_ignores
      (Grammar.Gives.matches ((gives_leaf_iff mem).mp body.gives))
      (List.all_eq_true.mp ignored c mark)
    rw [← reaches'.upTo_eq, reaches.upTo_eq] at foreign
    exact foreign inside

/-- An operator is a stroke, or it has no character that counts. -/
theorem operator_of_evaluates
    (h : grammar.Evaluates (.pattern .free (.rule .binaryOperator)) p (.matched nodes q)) :
    ∃ taken, p.Reaches taken q ∧ (taken = ['/'] ∨ ∀ c ∈ taken, c ∉ Text.markers) := by
  cases h with
  | @rule _ _ _ _ nodes body =>
    have one : grammar.Matches .free (.oneOf (.text ['=', '=', '='])
        ((binarySymbols.tail.map String.toList).map .text)) p nodes q := body.gives.matches
    obtain ⟨-, taken, mem, reaches⟩ := matches_oneOf_text one
    have all : (['=', '=', '='] :: binarySymbols.tail.map String.toList).all (fun chars =>
        chars == ['/'] || chars.all fun c => !Text.markers.contains c) = true := by decide
    refine ⟨taken, reaches, ?_⟩
    rcases Bool.or_eq_true_iff.mp (List.all_eq_true.mp all taken mem) with stroke | plain
    · exact .inl (beq_iff_eq.mp stroke)
    · exact .inr fun _ => Text.not_mem_of_apart plain

/-- No word and no string begins with a star. -/
theorem head_ne_star {name : Rule} (mem : name ∈ leafRules ∨ name = .stringLiteral)
    (ne : name ≠ .binaryOperator)
    (h : grammar.Evaluates (.pattern .free (.rule name)) p (.matched nodes q)) :
    p.rest.head? ≠ some '*' := by
  have avoided : avoids .free (.rule name) (some '*') = true := by
    have words : ∀ name ∈ leafRules, name ≠ .binaryOperator →
        avoids .free (.rule name) (some '*') = true := by decide
    rcases mem with mem | rfl
    · exact words name mem ne
    · decide
  intro head
  exact nomatch h.gives.unique (refuses_of_avoids avoided head p.offset)

end Leaves

/-! ## A text that is matched is bracketed -/

section Counting

variable {G : Prop} {rest : List Char}

/-- If the rest of a text is bracketed as the state says, then a fixed proposition holds.  After an
operator the rest of the text has to go on without a star. -/
def Counts (G : Prop) (d : Depth) (rest : List Char) : Prop :=
  Text.Bracketed d.opened rest → (d.awaits = true → rest.head? ≠ some '*') → G

/-- A text is compared with itself, as long as its rest counts. -/
def counting (G : Prop) : Tracking Rule Depth where
  places d p p' := p' = p ∧ Counts G d p.rest
  begins mode d p p' := p' = p ∧ Counts G d p.rest ∧ (mode = .free → Text.Solid p.rest)
  nodes xs ys := xs = ys

theorem Counts.text {chars : List Char} (h : Counts G d (chars ++ rest))
    (step : depthStep .free d (.text chars) = some d') : Counts G d' rest := by
  intro bracketed _
  rcases text_of_depthStep step with ⟨rfl, rfl⟩ | ⟨rfl, opened, eq, rfl⟩ | ⟨nonempty, plain, rfl⟩
  · exact h (.opens bracketed) fun _ => by simp
  · refine h ?_ fun _ => by simp
    rw [eq]
    exact .closes bracketed
  · obtain ⟨here, further⟩ : (∀ c ∈ chars, c ≠ '*') ∧ ∀ c ∈ chars, c ∉ Text.markers :=
      ⟨fun c mem star => plain c mem (star ▸ List.mem_cons_self),
        fun c mem mark => plain c mem (List.mem_cons_of_mem _ mark)⟩
    refine h ((Text.bracketed_append_iff further).mpr bracketed) fun _ star => ?_
    rw [List.head?_append_of_ne_nil _ nonempty] at star
    exact here '*' (List.mem_of_head? star) rfl

/-- A leaf that is matched counts. -/
theorem leads_of_counts {a : Pattern Rule}
    (step : ∀ {p q : Place} {nodes : List (Node Rule)}, Text.Solid p.rest →
      grammar.Evaluates (.pattern .free a) p (.matched nodes q) → Counts G d p.rest →
        Counts G d' q.rest) : grammar.Leads (counting G) d (.pattern .free a) d' := by
  rintro p _ outcome ⟨rfl, counts, solid⟩ evaluates
  cases outcome with
  | matched nodes q =>
    exact ⟨_, evaluates.gives, .matched rfl ⟨rfl, step (solid rfl) evaluates counts⟩⟩
  | failed => exact ⟨_, evaluates.gives, .failed⟩
  | exhausted => exact absurd rfl evaluates.ne_exhausted

theorem leads_word {name : Rule} (mem : name ∈ leafRules)
    (step : depthStep .free d (.rule name) = some d') :
    grammar.Leads (counting G) d (.pattern .free (.rule name)) d' := by
  refine leads_of_counts fun {p q nodes} solid evaluates counts bracketed follows => ?_
  rcases rule_of_depthStep step with ⟨rfl, ready, rfl⟩ | ⟨ne, rfl⟩
  · obtain ⟨taken, reaches, rfl | plain⟩ := operator_of_evaluates evaluates
    · rw [reaches.rest_eq] at counts solid
      refine counts (.stroke (fun c head => ⟨?_, ?_⟩) bracketed) fun awaits => ?_
      · -- two strokes begin a comment
        rintro rfl
        obtain ⟨more, follows⟩ : ∃ more, q.rest = '/' :: more :=
          ⟨_, (List.cons_head?_tail head).symm⟩
        obtain ⟨body, rest, rfl, isComment⟩ := Text.exists_lineComment more
        rw [follows] at solid
        exact solid.noComment _ rest rfl isComment
      · rintro rfl
        exact follows rfl head
      · exact absurd (ready.symm.trans awaits) (by decide)
    · rw [reaches.rest_eq] at counts
      refine counts ((Text.bracketed_append_iff plain).mpr bracketed) fun awaits => ?_
      exact absurd (ready.symm.trans awaits) (by decide)
  · obtain ⟨taken, reaches, plain⟩ := word_of_evaluates mem ne evaluates
    refine counts ?_ fun _ => head_ne_star (.inl mem) ne evaluates
    rw [reaches.rest_eq]
    exact (Text.bracketed_append_iff plain).mpr bracketed

theorem leads_stringLiteral (step : depthStep .free d (.rule .stringLiteral) = some d') :
    grammar.Leads (counting G) d (.pattern .free (.rule .stringLiteral)) d' := by
  refine leads_of_counts fun {p q nodes} _ evaluates counts bracketed _ => ?_
  rcases rule_of_depthStep step with ⟨isOperator, -⟩ | ⟨ne, rfl⟩
  · exact nomatch isOperator
  obtain ⟨quote, text, isQuote, quotable, reaches, -⟩ :=
    quoted_of_matches (Grammar.Gives.matches evaluates.gives)
  refine counts ?_ fun _ => head_ne_star (.inr rfl) ne evaluates
  rw [reaches.rest_eq, List.cons_append, List.append_assoc]
  exact (Text.bracketed_quoted_iff isQuote quotable).mpr bracketed

/-- Skipped text counts nothing, and does not begin with a star. -/
theorem Counts.trivia {gap : List Char} (h : Counts G d (gap ++ rest))
    (trivia : Text.Trivia gap rest) : Counts G d rest := by
  intro bracketed follows
  refine h ((Text.bracketed_trivia_iff trivia).mpr bracketed) fun awaits => ?_
  cases trivia with
  | nil => exact follows awaits
  | @blank c _ _ mem _ =>
    intro star
    obtain rfl := Option.some.inj star
    exact absurd mem (by decide)
  | comment isComment _ =>
    obtain ⟨_, _, -, rfl⟩ := isComment.exists_eq
    simp

/-- **Every match counts.** -/
theorem keeps_counting (G : Prop) : (counting G).Keeps grammar depthStep where
  nil := rfl
  append first second := congrArg₂ (· ++ ·) first second
  places_of_begins here := ⟨here.1, here.2.1⟩
  begins_of_tight tight here := ⟨here.1, here.2, fun free => absurd free tight⟩
  atom {mode d a d'} step notRule := by
    match mode, a with
    | .free, .text chars =>
      refine leads_of_counts fun {p q nodes} _ evaluates counts => ?_
      cases evaluates with
      | text eaten =>
        rw [(Place.eat?_eq_some_iff.mp eaten).1] at counts
        exact counts.text step
    | .free, .rule name => exact absurd rfl (notRule name)
  rule {mode d name d'} step := by
    obtain ⟨rfl, leaf | rfl | ⟨inner, -, tracked⟩⟩ := track_body step
    · exact .inl (leads_word leaf step)
    · exact .inl (leads_stringLiteral step)
    · refine .inr ⟨by rwa [inner], fun p p' here => by rwa [inner], ?_⟩
      rintro p _ q _ xs _ ⟨rfl, -⟩ ⟨rfl, -⟩ rfl
      rfl
  trivia d := by
    refine .inl ?_
    rintro p _ outcome ⟨rfl, counts⟩ evaluates
    obtain ⟨gap, q, rfl, reaches, trivia, solid⟩ := exists_trivia_of_evaluates evaluates
    rw [reaches.rest_eq] at counts
    exact ⟨_, evaluates.gives, .matched rfl ⟨rfl, counts.trivia trivia, fun _ => solid⟩⟩

/-- Nothing is skipped where an expression is matched. -/
theorem solid_of_gives {p q : Place} {nodes : List (Node Rule)}
    (h : grammar.Gives .free (.rule .expression) p (.matched nodes q)) : Text.Solid p.rest := by
  have refused : ∀ c ∈ '/' :: Text.blanks, p.rest.head? ≠ some c := by
    have avoided : ('/' :: Text.blanks).all (fun c =>
        avoids .free (.rule .expression) (some c)) = true := by decide
    intro c mem head
    exact nomatch h.unique (refuses_of_avoids (List.all_eq_true.mp avoided c mem) head p.offset)
  constructor
  · intro c head blank
    exact refused c (List.mem_cons_of_mem _ blank) head
  · intro comment rest split isComment
    obtain ⟨_, _, -, rfl⟩ := isComment.exists_eq
    exact refused '/' List.mem_cons_self (congrArg List.head? split)

/-- A text that is an expression, from its beginning to its end. -/
theorem exists_evaluates_expression {text : List Char} (h : accepts .expression text = true) :
    ∃ nodes stop, grammar.Evaluates (.pattern .free (.rule .expression)) ⟨0, text⟩
      (.matched nodes ⟨stop, []⟩) ∧ Text.Solid text := by
  obtain ⟨nodes, stop, gives⟩ := gives_of_accepts h
  have read := gives.unique (ranked.gives_read .expression text).2
  exact ⟨nodes, stop, (ranked.evaluates_iff_read .expression text _).mpr read, solid_of_gives gives⟩

/-- **The parentheses of an expression come out even.** -/
theorem bracketed_of_accepts {text : List Char} (h : accepts .expression text = true) :
    Text.Bracketed 0 text := by
  obtain ⟨nodes, stop, evaluates, solid⟩ := exists_evaluates_expression h
  have counts : Counts (Text.Bracketed 0 text) ⟨0, false⟩ text := fun bracketed _ => bracketed
  have leads : grammar.Leads (counting (Text.Bracketed 0 text)) ⟨0, false⟩
      (.pattern .free (.rule .expression)) ⟨0, false⟩ := (keeps_counting _).leads (by decide)
  obtain ⟨_, -, alike⟩ := leads ⟨rfl, counts, fun _ => solid⟩ evaluates
  cases alike with
  | matched _ after => exact after.2 .nil fun awaits => nomatch awaits

/-- **The parentheses of a script come out even.** -/
theorem bracketed_of_parseScript {text : List Char} {program : Program}
    (parsed : parseScript (String.ofList text) = .ok program) : Text.Bracketed 0 text := by
  obtain ⟨node, others, q, read, -⟩ := exists_node_of_parseScript parsed
  rw [String.toList_ofList] at read
  have evaluates := (ranked.evaluates_iff_read .script text _).mpr read.symm
  have counts : Counts (Text.Bracketed 0 text) ⟨0, false⟩ text := fun bracketed _ => bracketed
  have leads : grammar.Leads (counting (Text.Bracketed 0 text)) ⟨0, false⟩
      (.pattern .free (.many (.rule .statement))) ⟨0, false⟩ := (keeps_counting _).leads (by decide)
  cases evaluates with
  | @rule _ _ _ _ nodes body =>
    obtain ⟨_, _, _, start, parts, -⟩ := Grammar.Evaluates.exists_of_seq
      (show grammar.Evaluates (.pattern .free (.seq .atStart scriptParts)) _ _ from body)
    cases start with
    | atStart _ =>
      obtain ⟨_, first, _, skipped, parts, -⟩ := parts.exists_of_next
      obtain ⟨gap, _, same, reaches, trivia, solid⟩ := exists_trivia_of_evaluates skipped
      obtain ⟨-, rfl⟩ := Outcome.matched.inj same
      have whole : text = gap ++ first.rest := reaches.rest_eq
      have behind : Counts (Text.Bracketed 0 text) ⟨0, false⟩ (gap ++ first.rest) := by
        rwa [← whole]
      have counts := behind.trivia trivia
      obtain ⟨_, _, _, statements, ending, -⟩ := Grammar.Evaluates.exists_of_seq
        (show grammar.Evaluates (.pattern .free (.seq (.many (.rule .statement)) _)) _ _ from parts)
      obtain ⟨_, -, alike⟩ := leads ⟨rfl, counts, fun _ => solid⟩ statements
      cases alike with
      | matched _ after =>
        obtain ⟨_, last, _, skipped, ending, -⟩ := ending.exists_of_next
        obtain ⟨gap', _, same, reaches', trivia', -⟩ := exists_trivia_of_evaluates skipped
        obtain ⟨-, rfl⟩ := Outcome.matched.inj same
        have further := after.2
        rw [reaches'.rest_eq] at further
        cases ending with
        | rule body =>
          cases show grammar.Evaluates (.pattern .free .atEnd) _ _ from body with
          | atEnd ends =>
            have done := further.trivia trivia'
            rw [ends] at done
            exact done .nil fun awaits => nomatch awaits

/-- An expression that may stand in parentheses is enclosed. -/
theorem enclosed_of_parseScript {text : List Char} {program : Program}
    (accepted : accepts .expression text = true)
    (parsed : parseScript (String.ofList ('(' :: (text ++ [')']))) = .ok program) :
    Text.Enclosed 0 text :=
  Text.enclosed_of_parentheses (bracketed_of_accepts accepted) (bracketed_of_parseScript parsed)

end Counting

/-! ## A text before a closing parenthesis -/

section Enclosing

variable {tail : List Char}

/-- A text and the same text before a closing parenthesis, as long as the text is enclosed. -/
def enclosing (tail : List Char) : Tracking Rule Depth where
  places d p p' := p'.rest = p.rest ++ ')' :: tail ∧ Text.Enclosed d.opened p.rest
  begins mode d p p' := p'.rest = p.rest ++ ')' :: tail ∧ Text.Enclosed d.opened p.rest ∧
    (mode = .free → Text.Solid p.rest)
  nodes xs ys := outlines (fun _ => 0) xs = outlines (fun _ => 0) ys

theorem enclosed_of_text {chars rest : List Char} (h : Text.Enclosed d.opened (chars ++ rest))
    (step : depthStep .free d (.text chars) = some d') : Text.Enclosed d'.opened rest := by
  rcases text_of_depthStep step with ⟨rfl, rfl⟩ | ⟨rfl, opened, eq, rfl⟩ | ⟨-, plain, rfl⟩
  · exact h.opens
  · rw [eq] at h
    exact h.closes
  · exact h.append fun c mem mark => plain c mem (List.mem_cons_of_mem _ mark)

/-- **A closing parenthesis is asked for only where one is open**, and there the text goes on. -/
theorem encloses_text {chars : List Char} (step : depthStep .free d (.text chars) = some d') :
    grammar.Leads (enclosing tail) d (.pattern .free (.text chars)) d' := by
  rintro p p' outcome ⟨continued, enclosed, -⟩ evaluates
  cases evaluates with
  | @text _ _ _ q eaten =>
    obtain ⟨rest_eq, -⟩ := Place.eat?_eq_some_iff.mp eaten
    rw [rest_eq] at continued enclosed
    have taken : grammar.Takes .free (.text chars) (chars ++ (q.rest ++ ')' :: tail))
        (q.rest ++ ')' :: tail) (· = []) := Grammar.takes_text _ _
    obtain ⟨_, stop, rfl, gives⟩ := taken p'.offset
    rw [← List.append_assoc, ← continued] at gives
    exact ⟨_, gives, .matched rfl ⟨rfl, enclosed_of_text enclosed step⟩⟩
  | textFailed refused =>
    refine ⟨.failed, Grammar.refuses_text (fun begins => ?_) p'.offset, .failed⟩
    rw [continued] at begins
    have within : chars <+: p.rest := by
      rcases text_of_depthStep step with ⟨rfl, -⟩ | ⟨rfl, opened, eq, -⟩ | ⟨-, plain, -⟩
      · exact isPrefix_of_not_mem (by decide) begins
      · cases rest : p.rest with
        | nil =>
          rw [rest, eq] at enclosed
          exact nomatch enclosed.eq_zero_of_nil
        | cons c more =>
          rw [rest] at begins
          obtain ⟨same, -⟩ := List.cons_prefix_cons.mp begins
          rw [same]
          exact ⟨more, rfl⟩
      · exact isPrefix_of_not_mem (fun mem => plain ')' mem (by decide)) begins
    obtain ⟨rest, rest_eq⟩ := within
    have eaten : p.eat? chars = some ⟨p.offset + Text.byteLength chars, rest⟩ :=
      Place.eat?_eq_some_iff.mpr ⟨rest_eq.symm, rfl⟩
    exact nomatch refused.symm.trans eaten

theorem encloses_word {name : Rule} (mem : name ∈ leafRules)
    (step : depthStep .free d (.rule name) = some d') :
    grammar.Leads (enclosing tail) d (.pattern .free (.rule name)) d' := by
  rintro p p' outcome ⟨continued, enclosed, solid⟩ evaluates
  have all : leafRules.all (fun name =>
      (grammar.body name).ignores ')' (grammar.ignores ')' 3)) = true := by decide
  obtain ⟨_, gives, alike⟩ :=
    exists_alike_leaf mem (List.all_eq_true.mp all name mem) continued evaluates
  cases alike with
  | failed => exact ⟨_, gives, .failed⟩
  | @matched _ _ q _ same after =>
    refine ⟨_, gives, .matched same ⟨after, ?_⟩⟩
    rcases rule_of_depthStep step with ⟨rfl, -, rfl⟩ | ⟨ne, rfl⟩
    · obtain ⟨taken, reaches, rfl | plain⟩ := operator_of_evaluates evaluates
      · have solid := solid rfl
        rw [reaches.rest_eq] at enclosed solid
        exact enclosed.stroke solid
      · rw [reaches.rest_eq] at enclosed
        exact enclosed.append plain
    · obtain ⟨taken, reaches, plain⟩ := word_of_evaluates mem ne evaluates
      rw [reaches.rest_eq] at enclosed
      exact enclosed.append plain

/-- A string literal that is begun is ended in an enclosed text. -/
theorem encloses_stringLiteral (step : depthStep .free d (.rule .stringLiteral) = some d') :
    grammar.Leads (enclosing tail) d (.pattern .free (.rule .stringLiteral)) d' := by
  rintro p p' outcome ⟨continued, enclosed, -⟩ evaluates
  rcases rule_of_depthStep step with ⟨isOperator, -⟩ | ⟨-, rfl⟩
  · exact nomatch isOperator
  cases outcome with
  | exhausted => exact absurd rfl evaluates.ne_exhausted
  | matched nodes q =>
    obtain ⟨nodes', q', gives, same, after⟩ := exists_gives_stringLiteral evaluates.gives continued
    obtain ⟨quote, text, isQuote, quotable, reaches, -⟩ :=
      quoted_of_matches (Grammar.Gives.matches evaluates.gives)
    rw [reaches.rest_eq] at enclosed
    exact ⟨_, gives, .matched same ⟨after, enclosed.quoted isQuote quotable⟩⟩
  | failed =>
    obtain ⟨outcome', settled, gives⟩ :=
      ranked.exists_gives (show (Pattern.rule Rule.stringLiteral).descends profile Rule.all.length
        Rule.all.length = true by decide) .free p'
    cases outcome' with
    | exhausted => exact absurd rfl settled
    | failed => exact ⟨_, gives, .failed⟩
    | matched nodes q' =>
      obtain ⟨quote, text, isQuote, -, reaches, -⟩ := quoted_of_matches gives.matches
      have begins : p.rest ++ ')' :: tail = quote :: (text ++ [quote]) ++ q'.rest := by
        rw [← continued, reaches.rest_eq]
      cases rest : p.rest with
      | nil =>
        rw [rest] at begins
        obtain ⟨rfl, -⟩ := List.cons.inj begins
        exact absurd isQuote (by decide)
      | cons c more =>
        rw [rest] at begins enclosed
        obtain ⟨rfl, -⟩ := List.cons.inj begins
        obtain ⟨body, after, quotable, rfl, -⟩ := enclosed.bracketed.exists_quoted isQuote
        obtain ⟨_, _, -, taken⟩ := takes_stringLiteral isQuote quotable after p.offset
        rw [← rest] at taken
        exact nomatch evaluates.gives.unique taken

/-- **Matching goes on in the same way before a closing parenthesis.** -/
theorem keeps_enclosing (tail : List Char) : (enclosing tail).Keeps grammar depthStep where
  nil := rfl
  append := outlines_append
  places_of_begins here := ⟨here.1, here.2.1⟩
  begins_of_tight tight here := ⟨here.1, here.2, fun free => absurd free tight⟩
  atom {mode d a d'} step notRule := by
    match mode, a with
    | .free, .text chars => exact encloses_text step
    | .free, .rule name => exact absurd rfl (notRule name)
  rule {mode d name d'} step := by
    obtain ⟨rfl, leaf | rfl | ⟨inner, plain, tracked⟩⟩ := track_body step
    · exact .inl (encloses_word leaf step)
    · exact .inl (encloses_stringLiteral step)
    · refine .inr ⟨by rwa [inner], fun p p' here => by rwa [inner], ?_⟩
      intro p p' q q' xs ys _ _ same
      exact outlines_nodesOf rfl rfl (fun spelled => nomatch plain.symm.trans spelled) same
  trivia d := by
    refine .inl ?_
    rintro p ⟨offset', rest'⟩ outcome ⟨rfl, enclosed⟩ evaluates
    obtain ⟨gap, q, rfl, reaches, trivia, solid⟩ := exists_trivia_of_evaluates evaluates
    rw [reaches.rest_eq] at enclosed
    obtain ⟨trivia', enclosed'⟩ := enclosed.trivia trivia tail
    have gives := gives_trivia trivia' (enclosed'.solid solid tail) offset'
    rw [reaches.rest_eq, List.append_assoc]
    exact ⟨_, gives, .matched rfl ⟨rfl, enclosed', fun _ => solid⟩⟩

/-- **An expression is taken before a closing parenthesis** as it is at the end of a text. -/
theorem takes_enclosed {text : List Char} (accepted : accepts .expression text = true)
    (enclosed : Text.Enclosed 0 text) :
    ∃ nodes, ∀ tail, grammar.Takes .free (.rule .expression) (text ++ ')' :: tail) (')' :: tail)
      fun nodes' => outlines (fun _ => 0) nodes = outlines (fun _ => 0) nodes' := by
  obtain ⟨nodes, stop, evaluates, solid⟩ := exists_evaluates_expression accepted
  refine ⟨nodes, fun tail offset => ?_⟩
  have leads : grammar.Leads (enclosing tail) ⟨0, false⟩ (.pattern .free (.rule .expression))
      ⟨0, false⟩ := (keeps_enclosing tail).leads (by decide)
  have here : (enclosing tail).starts (.pattern .free (.rule .expression)) ⟨0, false⟩ ⟨0, text⟩
      ⟨offset, text ++ ')' :: tail⟩ := ⟨rfl, enclosed, fun _ => solid⟩
  obtain ⟨_, gives', alike⟩ := leads here evaluates
  cases alike with
  | @matched _ nodes' _ q' same after =>
    obtain ⟨stop', rest'⟩ := q'
    obtain rfl : rest' = ')' :: tail := after.1
    exact ⟨nodes', stop', same, gives'⟩

end Enclosing

end Language

end ScriptTrace
