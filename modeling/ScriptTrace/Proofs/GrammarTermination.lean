import Mathlib.Logic.Relation
import Mathlib.Order.WellFounded
import Mathlib.Data.Prod.Lex
import ScriptTrace.Proofs.Derivations
import ScriptTrace.Proofs.Evaluation
import ScriptTrace.Proofs.Words

/-!
# Matching ends

To match a goal, other goals have to be matched first, at places that depend on what has been taken
so far.  `Grammar.Asks` says which goals these are.  Matching ends if no chain of such goals goes on
for ever.

## Why no chain goes on for ever

In a ranked grammar a goal comes with a bound on the ranks of the rules that it may still call
before a character is taken (`Goal.Fits`).  A goal that is asked for stands further into the text,
or it has a smaller bound, or it has the same bound and is smaller
(`Grammar.Ranked.exists_fits_of_asks`).  This is all that is needed:

* There is no endless chain (`Grammar.Ranked.acc_asks`), since the characters left, the bound and
  the size go down in the order of a dictionary.
* A goal from which no endless chain starts has an outcome (`Grammar.exists_evaluates`).
* A rule that is called again has taken a character in the meantime, since otherwise its rank would
  be below itself (`Grammar.Ranked.ne_nil_of_reentered`).
* The item of a repetition takes a character wherever it matches, since it fits
  (`Grammar.Ranked.ne_nil_of_repeated`).

* `Grammar.Asks`: the goals that a goal needs.
* `Grammar.Settles`: what holds of every goal in a chain.
* `parsing_terminates`: all of this for the grammar of the language.
-/

namespace ScriptTrace.Peg

open Relation (ReflTransGen TransGen)

variable {ρ : Type}

/-! ## The goals that a goal needs -/

namespace Goal

/-- The size of a goal.  A pattern after what is skipped is larger than the pattern, and the further
items of a repetition are larger than one item. -/
def size : Goal ρ → Nat
  | .pattern _ a => 3 * a.size
  | .next _ a => 3 * a.size + 1
  | .more _ a => 3 * a.size + 2

/-- A goal calls only rules with a rank below a bound before a character is taken, and its
repetitions have items that take a character. -/
def Fits (g : Grammar ρ) (known : Profile ρ) (bound : Nat) : Goal ρ → Prop
  | .pattern mode a | .next mode a =>
    a.descends known g.rules.length bound = true ∧ bound ≤ g.rules.length ∧
      (mode = .free → 2 ≤ bound)
  | .more mode a =>
    a.descends known g.rules.length bound = true ∧ bound ≤ g.rules.length ∧
      (mode = .free → 2 ≤ bound) ∧ a.mayBeEmpty known = false

/-- A goal that matches an item again and again. -/
inductive Repeats (mode : Mode) (item : Pattern ρ) : Goal ρ → Prop
  | first : Repeats mode item (.pattern mode (.many item))
  | further : Repeats mode item (.more mode item)

end Goal

namespace Grammar

/-- To match the first goal at its place, the second one has to be matched at its place. -/
inductive Asks (g : Grammar ρ) : Goal ρ × Place → Goal ρ × Place → Prop
  | rule {mode : Mode} {name : ρ} {p : Place} :
      Asks g (.pattern mode (.rule name), p) (.pattern ((g.kind name).inner mode) (g.body name), p)
  | seqFirst {mode : Mode} {a b : Pattern ρ} {p : Place} :
      Asks g (.pattern mode (.seq a b), p) (.pattern mode a, p)
  | seqSecond {mode : Mode} {a b : Pattern ρ} {p q : Place} {nodes : List (Node ρ)}
      (first : g.Evaluates (.pattern mode a) p (.matched nodes q)) :
      Asks g (.pattern mode (.seq a b), p) (.next mode b, q)
  | choiceFirst {mode : Mode} {a b : Pattern ρ} {p : Place} :
      Asks g (.pattern mode (.choice a b), p) (.pattern mode a, p)
  | choiceSecond {mode : Mode} {a b : Pattern ρ} {p : Place}
      (first : g.Evaluates (.pattern mode a) p .failed) :
      Asks g (.pattern mode (.choice a b), p) (.pattern mode b, p)
  | manyFirst {mode : Mode} {a : Pattern ρ} {p : Place} :
      Asks g (.pattern mode (.many a), p) (.pattern mode a, p)
  | manyFurther {mode : Mode} {a : Pattern ρ} {p q : Place} {nodes : List (Node ρ)}
      (first : g.Evaluates (.pattern mode a) p (.matched nodes q)) :
      Asks g (.pattern mode (.many a), p) (.more mode a, q)
  | optional {mode : Mode} {a : Pattern ρ} {p : Place} :
      Asks g (.pattern mode (.optional a), p) (.pattern mode a, p)
  | absent {mode : Mode} {a : Pattern ρ} {p : Place} :
      Asks g (.pattern mode (.absent a), p) (.pattern mode a, p)
  | nextTight {mode : Mode} {a : Pattern ρ} {p : Place} (tight : mode ≠ .free) :
      Asks g (.next mode a, p) (.pattern mode a, p)
  | nextBlanks {a : Pattern ρ} {p : Place} :
      Asks g (.next .free a, p) (.pattern .atomic g.trivia, p)
  | nextItem {a : Pattern ρ} {p q : Place} {nodes : List (Node ρ)}
      (skipped : g.Evaluates (.pattern .atomic g.trivia) p (.matched nodes q)) :
      Asks g (.next .free a, p) (.pattern .free a, q)
  | moreItem {mode : Mode} {a : Pattern ρ} {p : Place} :
      Asks g (.more mode a, p) (.next mode a, p)
  | moreFurther {mode : Mode} {a : Pattern ρ} {p q : Place} {nodes : List (Node ρ)}
      (item : g.Evaluates (.next mode a) p (.matched nodes q)) :
      Asks g (.more mode a, p) (.more mode a, q)

/-! ## What a match takes -/

variable {g : Grammar ρ} {known : Profile ρ}

namespace Ranked

variable (ranked : g.Ranked known)
include ranked

/-- A match of a pattern takes a stretch of the text, which is not empty unless the pattern may
be. -/
theorem exists_taken {mode : Mode} {a : Pattern ρ} {p q : Place} {nodes : List (Node ρ)}
    (h : g.Evaluates (.pattern mode a) p (.matched nodes q)) :
    ∃ taken, p.Reaches taken q ∧ (taken = [] → a.mayBeEmpty known = true) := by
  obtain ⟨taken, reaches, empty, -⟩ := ranked.begins_of_gives h.gives 0
  exact ⟨taken, reaches, empty⟩

/-- The same after what is skipped. -/
theorem exists_taken_next {mode : Mode} {a : Pattern ρ} {p q : Place} {nodes : List (Node ρ)}
    (h : g.Evaluates (.next mode a) p (.matched nodes q)) :
    ∃ taken, p.Reaches taken q ∧ (taken = [] → a.mayBeEmpty known = true) := by
  generalize outcome_eq : Outcome.matched nodes q = outcome at h
  cases h with
  | nextTight _ item =>
    subst outcome_eq
    exact ranked.exists_taken item
  | nextFailed _ => exact nomatch outcome_eq
  | @next _ _ r blanks outcome skipped item =>
    cases outcome with
    | failed => exact nomatch outcome_eq
    | exhausted => exact nomatch outcome_eq
    | matched others q' =>
      obtain ⟨-, rfl⟩ := Outcome.matched.inj outcome_eq
      obtain ⟨spaces, reaches, -⟩ := ranked.exists_taken skipped
      obtain ⟨taken, reaches', empty⟩ := ranked.exists_taken item
      refine ⟨spaces ++ taken, reaches.trans reaches', fun none => empty ?_⟩
      exact (List.append_eq_nil_iff.mp none).2

/-! ## One step -/

/-- The pattern of a rule calls only rules of a smaller rank before a character is taken. -/
theorem fits_body (mode : Mode) (name : ρ) :
    (Goal.pattern ((g.kind name).inner mode) (g.body name)).Fits g known (known.rank name) := by
  refine ⟨ranked.descends name, Nat.le_of_lt (ranked.rank_lt name), fun isFree => ?_⟩
  exact ranked.two_le_rank name (inner_free_of_inner isFree)

/-- **The step**: a goal that is asked for stands further into the text, or has a smaller bound, or
has the same bound and is smaller. -/
theorem exists_fits_of_asks {goal goal' : Goal ρ} {p p' : Place} {bound : Nat}
    (fits : goal.Fits g known bound) (asks : g.Asks (goal, p) (goal', p')) :
    ∃ taken bound', p.Reaches taken p' ∧ goal'.Fits g known bound' ∧
      (taken = [] → bound' < bound ∨ bound' = bound ∧ goal'.size < goal.size) := by
  cases asks with
  | @rule mode name =>
    have lower : known.rank name < bound := of_decide_eq_true fits.1
    exact ⟨[], known.rank name, .refl p, ranked.fits_body mode name, fun _ => .inl lower⟩
  | @seqFirst mode a b =>
    obtain ⟨descends, le, free⟩ := fits
    simp only [Pattern.descends, Bool.and_eq_true] at descends
    refine ⟨[], bound, .refl p, ⟨descends.1, le, free⟩, fun _ => .inr ⟨rfl, ?_⟩⟩
    simp only [Goal.size, Pattern.size]
    omega
  | @seqSecond mode a b _ _ nodes first =>
    obtain ⟨descends, le, free⟩ := fits
    simp only [Pattern.descends, Bool.and_eq_true] at descends
    obtain ⟨taken, reaches, empty⟩ := ranked.exists_taken first
    cases mayBeEmpty : a.mayBeEmpty known with
    | true =>
      rw [mayBeEmpty] at descends
      refine ⟨taken, bound, reaches, ⟨descends.2, le, free⟩, fun _ => .inr ⟨rfl, ?_⟩⟩
      simp only [Goal.size, Pattern.size]
      omega
    | false =>
      -- a character has been taken, so that all rules may be called again
      rw [mayBeEmpty] at descends
      refine ⟨taken, g.rules.length, reaches, ⟨descends.2, Nat.le_refl _, ?_⟩, fun none => ?_⟩
      · exact fun _ => ranked.two_le_length
      · exact absurd (mayBeEmpty.symm.trans (empty none)) Bool.false_ne_true
  | @choiceFirst mode a b =>
    obtain ⟨descends, le, free⟩ := fits
    simp only [Pattern.descends, Bool.and_eq_true] at descends
    refine ⟨[], bound, .refl p, ⟨descends.1, le, free⟩, fun _ => .inr ⟨rfl, ?_⟩⟩
    simp only [Goal.size, Pattern.size]
    omega
  | @choiceSecond mode a b _ first =>
    obtain ⟨descends, le, free⟩ := fits
    simp only [Pattern.descends, Bool.and_eq_true] at descends
    refine ⟨[], bound, .refl p, ⟨descends.2, le, free⟩, fun _ => .inr ⟨rfl, ?_⟩⟩
    simp only [Goal.size, Pattern.size]
    omega
  | @manyFirst mode a =>
    obtain ⟨descends, le, free⟩ := fits
    simp only [Pattern.descends, Bool.and_eq_true] at descends
    refine ⟨[], bound, .refl p, ⟨descends.1, le, free⟩, fun _ => .inr ⟨rfl, ?_⟩⟩
    simp only [Goal.size, Pattern.size]
    omega
  | @manyFurther mode a _ _ nodes first =>
    obtain ⟨descends, le, free⟩ := fits
    simp only [Pattern.descends, Bool.and_eq_true, Bool.not_eq_true'] at descends
    obtain ⟨taken, reaches, empty⟩ := ranked.exists_taken first
    refine ⟨taken, bound, reaches, ⟨descends.1, le, free, descends.2⟩, fun none => ?_⟩
    exact absurd (descends.2.symm.trans (empty none)) Bool.false_ne_true
  | @optional mode a =>
    obtain ⟨descends, le, free⟩ := fits
    refine ⟨[], bound, .refl p, ⟨descends, le, free⟩, fun _ => .inr ⟨rfl, ?_⟩⟩
    simp only [Goal.size, Pattern.size]
    omega
  | @absent mode a =>
    obtain ⟨descends, le, free⟩ := fits
    refine ⟨[], bound, .refl p, ⟨descends, le, free⟩, fun _ => .inr ⟨rfl, ?_⟩⟩
    simp only [Goal.size, Pattern.size]
    omega
  | nextTight tight =>
    exact ⟨[], bound, .refl p, fits, fun _ => .inr ⟨rfl, Nat.lt_succ_self _⟩⟩
  | nextBlanks =>
    obtain ⟨descends, le, free⟩ := fits
    have lower : 1 < bound := free rfl
    refine ⟨[], 1, .refl p, ⟨ranked.trivia, by omega, ?_⟩, fun _ => .inl lower⟩
    exact fun isFree => absurd isFree (by decide)
  | nextItem skipped =>
    obtain ⟨taken, reaches, -⟩ := ranked.exists_taken skipped
    exact ⟨taken, bound, reaches, fits, fun _ => .inr ⟨rfl, Nat.lt_succ_self _⟩⟩
  | moreItem =>
    obtain ⟨descends, le, free, -⟩ := fits
    exact ⟨[], bound, .refl p, ⟨descends, le, free⟩, fun _ => .inr ⟨rfl, Nat.lt_succ_self _⟩⟩
  | moreFurther item =>
    obtain ⟨-, -, -, nonempty⟩ := id fits
    obtain ⟨taken, reaches, empty⟩ := ranked.exists_taken_next item
    refine ⟨taken, bound, reaches, fits, fun none => ?_⟩
    exact absurd (nonempty.symm.trans (empty none)) Bool.false_ne_true

/-! ## Runs -/

/-- **The run**: along a chain of goals the bound does not grow before a character is taken. -/
theorem exists_fits_of_chain {goal goal' : Goal ρ} {p p' : Place} {bound : Nat}
    (fits : goal.Fits g known bound) (chain : ReflTransGen g.Asks (goal, p) (goal', p')) :
    ∃ taken bound', p.Reaches taken p' ∧ goal'.Fits g known bound' ∧
      (taken = [] → bound' ≤ bound) := by
  generalize last_eq : (goal', p') = last at chain
  induction chain generalizing goal' p' with
  | refl =>
    obtain ⟨rfl, rfl⟩ := Prod.mk.inj last_eq
    exact ⟨[], bound, .refl p', fits, fun _ => Nat.le_refl _⟩
  | @tail now _ _ asks ih =>
    subst last_eq
    obtain ⟨now, r⟩ := now
    obtain ⟨taken, bound', reaches, fits', le⟩ := ih rfl
    obtain ⟨further, bound'', reaches', fits'', lower⟩ := ranked.exists_fits_of_asks fits' asks
    refine ⟨taken ++ further, bound'', reaches.trans reaches', fits'', fun none => ?_⟩
    obtain ⟨rfl, rfl⟩ := List.append_eq_nil_iff.mp none
    have before := le rfl
    rcases lower rfl with lt | ⟨rfl, -⟩ <;> omega

/-- **There is no endless chain**: the characters left, the bound and the size go down in the order
of a dictionary. -/
theorem acc_asks {goal : Goal ρ} {p : Place} {bound : Nat} (fits : goal.Fits g known bound) :
    Acc (fun next now => g.Asks now next) (goal, p) := by
  generalize measure_eq : toLex (p.rest.length, toLex (bound, goal.size)) = measure
  induction measure using WellFoundedLT.induction generalizing goal p bound with
  | ind measure ih =>
    subst measure_eq
    refine .intro _ fun ⟨goal', p'⟩ asks => ?_
    obtain ⟨taken, bound', reaches, fits', lower⟩ := ranked.exists_fits_of_asks fits asks
    refine ih _ ?_ fits' rfl
    have length_eq : p.rest.length = taken.length + p'.rest.length := by
      rw [reaches.rest_eq, List.length_append]
    cases taken with
    | cons c taken =>
      refine Prod.Lex.toLex_lt_toLex.mpr (.inl ?_)
      rw [length_eq, List.length_cons]
      omega
    | nil =>
      refine Prod.Lex.toLex_lt_toLex.mpr (.inr ⟨by simpa using length_eq.symm, ?_⟩)
      exact Prod.Lex.toLex_lt_toLex.mpr (lower rfl)

/-- **A rule that is called again has taken a character**: otherwise its rank would be below
itself. -/
theorem ne_nil_of_reentered {mode mode' : Mode} {name : ρ} {p p' : Place}
    (chain : TransGen g.Asks (.pattern mode (.rule name), p) (.pattern mode' (.rule name), p')) :
    ∃ taken, taken ≠ [] ∧ p.Reaches taken p' := by
  obtain ⟨_, asks, further⟩ := TransGen.head'_iff.mp chain
  cases asks with
  | rule =>
    obtain ⟨taken, bound', reaches, fits, le⟩ :=
      ranked.exists_fits_of_chain (ranked.fits_body mode name) further
    refine ⟨taken, fun none => ?_, reaches⟩
    have lower : known.rank name < bound' := of_decide_eq_true fits.1
    exact absurd (le none) (Nat.not_le.mpr lower)

/-- **An item of a repetition takes a character**, since the repetition fits. -/
theorem ne_nil_of_repeated {goal : Goal ρ} {mode : Mode} {item : Pattern ρ} {bound : Nat}
    (fits : goal.Fits g known bound) (repeats : Goal.Repeats mode item goal)
    {p q : Place} {nodes : List (Node ρ)}
    (matched : g.Evaluates (.pattern mode item) p (.matched nodes q)) :
    ∃ taken, taken ≠ [] ∧ p.Reaches taken q := by
  have nonempty : item.mayBeEmpty known = false := by
    cases repeats with
    | first =>
      have descends := fits.1
      simp only [Pattern.descends, Bool.and_eq_true, Bool.not_eq_true'] at descends
      exact descends.2
    | further => exact fits.2.2.2
  obtain ⟨taken, reaches, empty⟩ := ranked.exists_taken matched
  refine ⟨taken, fun none => ?_, reaches⟩
  exact absurd (nonempty.symm.trans (empty none)) Bool.false_ne_true

end Ranked

/-! ## Outcomes -/

/-- **A goal from which no endless chain starts has an outcome.**  Each case asks for the goals that
it needs, and puts their outcomes together. -/
theorem exists_evaluates {start : Goal ρ × Place}
    (ends : Acc (fun next now => g.Asks now next) start) :
    ∃ outcome, g.Evaluates start.1 start.2 outcome := by
  induction ends with
  | intro start _ ih =>
    have ask {goal' : Goal ρ} {p' : Place} (asks : g.Asks start (goal', p')) :
        (∃ nodes q, g.Evaluates goal' p' (.matched nodes q)) ∨ g.Evaluates goal' p' .failed :=
      Evaluates.exists_matched_or_failed (ih (goal', p') asks)
    obtain ⟨goal, p⟩ := start
    cases goal with
    | pattern mode a =>
      cases a with
      | text chars =>
        cases eaten : p.eat? chars with
        | some q => exact ⟨_, .text eaten⟩
        | none => exact ⟨_, .textFailed eaten⟩
      | char k =>
        by_cases outside : ∀ c ∈ p.rest.head?, k.contains c = false
        · exact ⟨_, .charFailed outside⟩
        · obtain ⟨offset, rest⟩ := p
          cases rest with
          | nil => simp at outside
          | cons c rest => exact ⟨_, .char (by simpa using outside)⟩
      | atStart =>
        by_cases starts : p.offset = 0
        · exact ⟨_, .atStart starts⟩
        · exact ⟨_, .atStartFailed starts⟩
      | atEnd =>
        by_cases ends : p.rest = []
        · exact ⟨_, .atEnd ends⟩
        · exact ⟨_, .atEndFailed ends⟩
      | rule name =>
        rcases ask .rule with ⟨nodes, q, body⟩ | body
        · exact ⟨_, .rule body⟩
        · exact ⟨_, .ruleFailed body⟩
      | seq a b =>
        rcases ask .seqFirst with ⟨nodes, q, first⟩ | first
        · obtain ⟨outcome, second⟩ := ih _ (.seqSecond first)
          exact ⟨_, .seq first second⟩
        · exact ⟨_, .seqFailed first⟩
      | choice a b =>
        rcases ask .choiceFirst with ⟨nodes, q, first⟩ | first
        · exact ⟨_, .choice first⟩
        · obtain ⟨outcome, second⟩ := ih _ (.choiceSecond first)
          exact ⟨_, .choiceFailed first second⟩
      | many a =>
        rcases ask .manyFirst with ⟨nodes, q, first⟩ | first
        · rcases ask (.manyFurther first) with ⟨others, r, further⟩ | further
          · exact ⟨_, .many first further⟩
          · exact absurd rfl further.more_ne_failed
        · exact ⟨_, .manyNone first⟩
      | optional a =>
        rcases ask .optional with ⟨nodes, q, item⟩ | item
        · exact ⟨_, .optional item⟩
        · exact ⟨_, .optionalNone item⟩
      | absent a =>
        rcases ask .absent with ⟨nodes, q, item⟩ | item
        · exact ⟨_, .absentFailed item⟩
        · exact ⟨_, .absent item⟩
    | next mode a =>
      by_cases tight : mode = .free
      · subst tight
        rcases ask .nextBlanks with ⟨nodes, q, skipped⟩ | skipped
        · obtain ⟨outcome, item⟩ := ih _ (.nextItem skipped)
          exact ⟨_, .next skipped item⟩
        · exact ⟨_, .nextFailed skipped⟩
      · obtain ⟨outcome, item⟩ := ih _ (.nextTight tight)
        exact ⟨_, .nextTight tight item⟩
    | more mode a =>
      rcases ask .moreItem with ⟨nodes, q, item⟩ | item
      · rcases ask (.moreFurther item) with ⟨others, r, further⟩ | further
        · exact ⟨_, .more item further⟩
        · exact absurd rfl further.more_ne_failed
      · exact ⟨_, .moreNone item⟩

/-- What holds of a goal at a place while a source is matched. -/
structure Settles (g : Grammar ρ) (source : List Char) (goal : Goal ρ) (p : Place) : Prop where
  /-- It stands within the source. -/
  inside : p.Of source
  /-- It has an outcome. -/
  ends : ∃ outcome, g.Evaluates goal p outcome
  /-- A match goes on in the source from where it begins. -/
  span : ∀ nodes q, g.Evaluates goal p (.matched nodes q) →
    q.Of source ∧ ∃ taken, p.Reaches taken q
  /-- A rule that is called again has taken a character. -/
  reentered : ∀ mode mode' name p', goal = .pattern mode (.rule name) →
    TransGen g.Asks (goal, p) (.pattern mode' (.rule name), p') →
    ∃ taken, taken ≠ [] ∧ p.Reaches taken p'
  /-- The items of a repetition take characters. -/
  repeated : ∀ mode item, Goal.Repeats mode item goal →
    ∀ nodes q r, g.Evaluates (.pattern mode item) q (.matched nodes r) →
    ∃ taken, taken ≠ [] ∧ q.Reaches taken r

/-- A rule to start with may call all rules. -/
theorem Ranked.fits_rule (ranked : g.Ranked known) (rule : ρ) :
    (Goal.pattern .free (.rule rule)).Fits g known g.rules.length :=
  ⟨decide_eq_true (ranked.rank_lt rule), Nat.le_refl _, fun _ => ranked.two_le_length⟩

/-- The bounded matcher answers with the one outcome. -/
theorem Ranked.evaluates_iff_read (ranked : g.Ranked known) (rule : ρ) (source : List Char)
    (outcome : Outcome ρ) :
    g.Evaluates (.pattern .free (.rule rule)) ⟨0, source⟩ outcome ↔
      outcome = (g.read rule source).1 := by
  obtain ⟨-, gives⟩ := ranked.gives_read rule source
  constructor
  · intro evaluates
    exact Gives.unique evaluates.gives gives
  · rintro rfl
    obtain ⟨outcome, evaluates⟩ := exists_evaluates (ranked.acc_asks (ranked.fits_rule rule))
    rwa [Gives.unique gives evaluates.gives]

theorem Ranked.settles_of_chain (ranked : g.Ranked known) {source : List Char}
    {start goal : Goal ρ} {p : Place} {bound : Nat} (fits : start.Fits g known bound)
    (chain : ReflTransGen g.Asks (start, ⟨0, source⟩) (goal, p)) : g.Settles source goal p := by
  obtain ⟨taken, bound', reaches, fits', -⟩ := ranked.exists_fits_of_chain fits chain
  have inside : p.Of source := ⟨taken, reaches⟩
  exact {
    inside := inside
    ends := exists_evaluates (ranked.acc_asks fits')
    span nodes q matched := by
      obtain ⟨further, reaches'⟩ := matched.exists_reaches
      exact ⟨inside.reaches reaches', further, reaches'⟩
    reentered mode mode' name p' isRule again := by
      subst isRule
      exact ranked.ne_nil_of_reentered again
    repeated mode item repeats nodes q r matched :=
      ranked.ne_nil_of_repeated fits' repeats matched }

end Grammar

end ScriptTrace.Peg

namespace ScriptTrace

open Peg ScriptTrace.Language
open Relation (ReflTransGen)

/-- **Matching ends on every source, for every rule to start with.**  No chain of goals goes on for
ever, and each goal in a chain is settled: it stands within the source and has an outcome, a rule is
not called again before a character is taken, and every item of a repetition takes a character.  The
match as a whole has one outcome, which is what the bounded matcher answers, and takes the beginning
of the source. -/
theorem parsing_terminates (rule : Rule) (source : String) :
    Acc (fun next now => grammar.Asks now next) (.pattern .free (.rule rule), ⟨0, source.toList⟩) ∧
      (∀ goal p, ReflTransGen grammar.Asks (.pattern .free (.rule rule), ⟨0, source.toList⟩)
        (goal, p) → grammar.Settles source.toList goal p) ∧
      (∀ outcome, grammar.Evaluates (.pattern .free (.rule rule)) ⟨0, source.toList⟩ outcome ↔
        outcome = (grammar.read rule source.toList).1) ∧
      ∀ nodes q, (grammar.read rule source.toList).1 = .matched nodes q →
        ∃ taken, source.toList = taken ++ q.rest ∧ q.offset = Text.byteLength taken := by
  have fits := ranked.fits_rule rule
  refine ⟨ranked.acc_asks fits, fun goal p chain => ranked.settles_of_chain fits chain,
    ranked.evaluates_iff_read rule source.toList, fun nodes q matched => ?_⟩
  have evaluates := (ranked.evaluates_iff_read rule source.toList _).mpr matched.symm
  obtain ⟨taken, reaches⟩ := evaluates.exists_reaches
  exact ⟨taken, reaches.rest_eq, by simpa using reaches.offset_eq⟩

end ScriptTrace
