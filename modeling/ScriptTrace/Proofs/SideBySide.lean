import ScriptTrace.Proofs.Evaluation

/-!
# Two matches side by side

The same pattern is matched at two places, of one text or of two.  If the places look alike to the
pattern, both matches go the same way: either both fail, or both match, with nodes that look alike
and up to places that again look alike.  What it means to look alike is a `Comparison`, and a goal
for which this holds is *steady*.

## From leaves to patterns

Every way to put patterns together keeps steadiness, whatever is compared, and so does the skipped
text between the parts if it is steady itself.  What is left are the leaves: the atoms, and the
rules that have to be looked at as a whole.  `Pattern.walks` says that a pattern is put together
from leaves that are known, and `Comparison.Keeps` that the known leaves are steady or are rules
with such a pattern.  Then all patterns put together from known leaves are steady
(`Comparison.Keeps.steady`).

## Comparisons that change on the way

Whether two places look alike may depend on what has been matched before: between parentheses they
do, and after the closing one they look alike in another sense.  A `Tracking` has a state for this.
A leaf leads from one state to another, a sequence composes these steps, branches have to agree, and
what may be left out or repeated has to lead back (`Pattern.track`).  A goal then leads where its
pattern does (`Tracking.Keeps.leads`).  Rules call each other, so this is an induction on the first
of the two matches.  A `Comparison` is a tracking with a single state.

* `Comparison`, `Outcome.Alike`: what is compared.
* `Grammar.Steady`: goals that have alike outcomes at alike places.
* `Tracking`, `Grammar.Leads`: what is compared in a state, and goals that lead to another one.
* `Tracking.Keeps.leads`: where goals lead, from where the leaves do.
* `Comparison.Keeps.steady`: steadiness from that of the leaves.
* `Comparison.Keeps.steady_seq`, `Comparison.Keeps.steady_next`: steadiness of a sequence whose
  parts are no leaves.
-/

namespace ScriptTrace.Peg

variable {ρ : Type}

/-- When two places look alike, and when the nodes of two matches do. -/
structure Comparison (ρ : Type) where
  places : Place → Place → Prop
  nodes : List (Node ρ) → List (Node ρ) → Prop

/-- Two matches end in the same way. -/
inductive Outcome.Alike (C : Comparison ρ) : Outcome ρ → Outcome ρ → Prop
  | failed : Alike C .failed .failed
  | matched {xs ys : List (Node ρ)} {q q' : Place} (nodes : C.nodes xs ys) (after : C.places q q') :
      Alike C (.matched xs q) (.matched ys q')

/-- A goal has alike outcomes at places that look alike. -/
def Grammar.Steady (g : Grammar ρ) (C : Comparison ρ) (goal : Goal ρ) : Prop :=
  ∀ ⦃p p' : Place⦄ ⦃outcome : Outcome ρ⦄, C.places p p' → g.Evaluates goal p outcome →
    ∃ outcome', g.GivesGoal goal p' outcome' ∧ outcome.Alike C outcome'

/-- Whether a pattern is put together from known leaves. -/
def Pattern.walks (known : Pattern ρ → Bool) : Pattern ρ → Bool
  | .seq a b | .choice a b => a.walks known && b.walks known
  | .many a | .optional a | .absent a => a.walks known
  | .text chars => known (.text chars)
  | .char k => known (.char k)
  | .atStart => known .atStart
  | .atEnd => known .atEnd
  | .rule name => known (.rule name)

/-- Whether the pattern of a goal is put together from known leaves. -/
def Goal.walks (known : Mode → Pattern ρ → Bool) : Goal ρ → Bool
  | .pattern mode a | .next mode a | .more mode a => a.walks (known mode)

/-- The nodes of a rule look alike where those of its pattern do. -/
def Grammar.KeepsNodes (g : Grammar ρ) (C : Comparison ρ) (mode : Mode) (name : ρ) : Prop :=
  ∀ ⦃p p' q q' : Place⦄ ⦃xs ys : List (Node ρ)⦄, C.places p p' → C.places q q' → C.nodes xs ys →
    C.nodes (g.nodesOf mode name p.offset q.offset (p.upTo q.offset) xs)
      (g.nodesOf mode name p'.offset q'.offset (p'.upTo q'.offset) ys)

/-- A comparison that the known leaves keep.  A known rule is steady as a whole, or its pattern is
put together from known leaves. -/
structure Comparison.Keeps (C : Comparison ρ) (g : Grammar ρ) (known : Mode → Pattern ρ → Bool) :
    Prop where
  nil : C.nodes [] []
  append : ∀ {xs ys xs' ys'}, C.nodes xs ys → C.nodes xs' ys' → C.nodes (xs ++ xs') (ys ++ ys')
  atom : ∀ {mode a}, known mode a = true → (∀ name, a ≠ .rule name) → g.Steady C (.pattern mode a)
  rule : ∀ {mode name}, known mode (.rule name) = true →
    g.Steady C (.pattern mode (.rule name)) ∨
      (g.body name).walks (known ((g.kind name).inner mode)) = true ∧ g.KeepsNodes C mode name
  trivia : g.Steady C (.pattern .atomic g.trivia) ∨ g.trivia.walks (known .atomic) = true

/-! ## Comparisons that change on the way -/

section Tracking

variable {σ : Type}

/-- When two places look alike in a state, when they do so and a pattern may begin there, and when
the nodes of two matches look alike. -/
structure Tracking (ρ σ : Type) where
  places : σ → Place → Place → Prop
  begins : Mode → σ → Place → Place → Prop
  nodes : List (Node ρ) → List (Node ρ) → Prop

namespace Tracking

/-- What is compared in a state. -/
def comparison (T : Tracking ρ σ) (s : σ) : Comparison ρ where
  places := T.places s
  nodes := T.nodes

/-- What is compared in a state where blanks have been skipped. -/
def skipped (T : Tracking ρ σ) (s : σ) : Comparison ρ where
  places := T.begins .free s
  nodes := T.nodes

/-- When two places look alike where a goal begins.  Before anything is skipped no pattern
begins. -/
def starts (T : Tracking ρ σ) : Goal ρ → σ → Place → Place → Prop
  | .pattern mode _ => T.begins mode
  | .next _ _ | .more _ _ => T.places

end Tracking

/-- A goal has alike outcomes at places that look alike in a first state, and leads to a second
one. -/
def Grammar.Leads (g : Grammar ρ) (T : Tracking ρ σ) (s : σ) (goal : Goal ρ) (t : σ) : Prop :=
  ∀ ⦃p p' : Place⦄ ⦃outcome : Outcome ρ⦄, T.starts goal s p p' → g.Evaluates goal p outcome →
    ∃ outcome', g.GivesGoal goal p' outcome' ∧ outcome.Alike (T.comparison t) outcome'

variable [DecidableEq σ]

/-- The state that a pattern leads to from a state, given where the leaves lead.  What may be left
out or repeated has to lead back. -/
def Pattern.track (step : σ → Pattern ρ → Option σ) : Pattern ρ → σ → Option σ
  | .seq a b, s => (a.track step s).bind (b.track step)
  | .choice a b, s => if a.track step s = b.track step s then a.track step s else none
  | .many a, s | .optional a, s | .absent a, s =>
    if a.track step s = some s then some s else none
  | .text chars, s => step s (.text chars)
  | .char k, s => step s (.char k)
  | .atStart, s => step s .atStart
  | .atEnd, s => step s .atEnd
  | .rule name, s => step s (.rule name)

/-- The state that a goal leads to. -/
def Goal.track (step : Mode → σ → Pattern ρ → Option σ) : Goal ρ → σ → Option σ
  | .pattern mode a | .next mode a => a.track (step mode)
  | .more mode a => (Pattern.many a).track (step mode)

/-- A tracking that the leaves keep.  A rule leads where it is said to lead as a whole, or its
pattern does. -/
structure Tracking.Keeps (T : Tracking ρ σ) (g : Grammar ρ)
    (step : Mode → σ → Pattern ρ → Option σ) : Prop where
  nil : T.nodes [] []
  append : ∀ {xs ys xs' ys'}, T.nodes xs ys → T.nodes xs' ys' → T.nodes (xs ++ xs') (ys ++ ys')
  places_of_begins : ∀ {mode s p p'}, T.begins mode s p p' → T.places s p p'
  begins_of_tight : ∀ {mode s p p'}, mode ≠ .free → T.places s p p' → T.begins mode s p p'
  atom : ∀ {mode s a t}, step mode s a = some t → (∀ name, a ≠ .rule name) →
    g.Leads T s (.pattern mode a) t
  rule : ∀ {mode s name t}, step mode s (.rule name) = some t →
    g.Leads T s (.pattern mode (.rule name)) t ∨
      (g.body name).track (step ((g.kind name).inner mode)) s = some t ∧
        (∀ p p', T.begins mode s p p' → T.begins ((g.kind name).inner mode) s p p') ∧
        ∀ p p' q q' xs ys, T.places s p p' → T.places t q q' → T.nodes xs ys →
          T.nodes (g.nodesOf mode name p.offset q.offset (p.upTo q.offset) xs)
            (g.nodesOf mode name p'.offset q'.offset (p'.upTo q'.offset) ys)
  trivia : ∀ s,
    (∀ ⦃p p' : Place⦄ ⦃outcome : Outcome ρ⦄, T.places s p p' →
      g.Evaluates (.pattern .atomic g.trivia) p outcome →
        ∃ outcome', g.Gives .atomic g.trivia p' outcome' ∧ outcome.Alike (T.skipped s) outcome') ∨
      g.trivia.track (step .atomic) s = some s ∧ ∀ p p', T.places s p p' → T.begins .free s p p'

namespace Tracking.Keeps

variable {T : Tracking ρ σ} {g : Grammar ρ} {step : Mode → σ → Pattern ρ → Option σ}

theorem prepend (keeps : T.Keeps g step) {t : σ} {xs ys : List (Node ρ)}
    {outcome outcome' : Outcome ρ} (first : T.nodes xs ys)
    (second : outcome.Alike (T.comparison t) outcome') :
    (outcome.prepend xs).Alike (T.comparison t) (outcome'.prepend ys) := by
  cases second with
  | failed => exact .failed
  | matched nodes after => exact .matched (keeps.append first nodes) after

theorem eq_of_repeated {a : Pattern ρ} {step : σ → Pattern ρ → Option σ} {s t : σ}
    (h : (if a.track step s = some s then some s else none) = some t) :
    a.track step s = some s ∧ s = t := by
  split at h
  · exact ⟨‹_›, Option.some.inj h⟩
  · exact nomatch h

/-- **A goal leads where its pattern does.**  The induction is on the first of the two matches. -/
theorem leads (keeps : T.Keeps g step) {goal : Goal ρ} {s t : σ}
    (tracked : goal.track step s = some t) : g.Leads T s goal t := by
  intro p p' outcome here h
  have none : T.nodes [] [] := keeps.nil
  induction h generalizing p' s t with
  | text eaten => exact keeps.atom tracked (fun _ => nofun) here (.text eaten)
  | textFailed refused => exact keeps.atom tracked (fun _ => nofun) here (.textFailed refused)
  | char inside => exact keeps.atom tracked (fun _ => nofun) here (.char inside)
  | charFailed outside => exact keeps.atom tracked (fun _ => nofun) here (.charFailed outside)
  | atStart starts => exact keeps.atom tracked (fun _ => nofun) here (.atStart starts)
  | atStartFailed further => exact keeps.atom tracked (fun _ => nofun) here (.atStartFailed further)
  | atEnd ends => exact keeps.atom tracked (fun _ => nofun) here (.atEnd ends)
  | atEndFailed earlier => exact keeps.atom tracked (fun _ => nofun) here (.atEndFailed earlier)
  | rule body ih =>
    rcases keeps.rule tracked with whole | ⟨inside, inner, kept⟩
    · exact whole here (.rule body)
    · obtain ⟨_, gives, alike⟩ := ih inside (inner _ _ here)
      cases alike with
      | matched nodes after =>
        have nodes := kept _ _ _ _ _ _ (keeps.places_of_begins here) after nodes
        exact ⟨_, Grammar.Gives.rule gives, .matched nodes after⟩
  | ruleFailed body ih =>
    rcases keeps.rule tracked with whole | ⟨inside, inner, -⟩
    · exact whole here (.ruleFailed body)
    · obtain ⟨_, gives, alike⟩ := ih inside (inner _ _ here)
      cases alike with
      | failed => exact ⟨_, Grammar.Gives.rule_failed gives, .failed⟩
  | seq _ _ ihFirst ihSecond =>
    obtain ⟨_, trackedFirst, trackedSecond⟩ := Option.bind_eq_some_iff.mp tracked
    obtain ⟨_, first, alike⟩ := ihFirst trackedFirst here
    cases alike with
    | matched nodes after =>
      obtain ⟨_, second, alike⟩ := ihSecond trackedSecond after
      exact ⟨_, Grammar.Gives.seq_next first second, keeps.prepend nodes alike⟩
  | seqFailed _ ih =>
    obtain ⟨_, trackedFirst, -⟩ := Option.bind_eq_some_iff.mp tracked
    obtain ⟨_, first, alike⟩ := ih trackedFirst here
    cases alike with
    | failed => exact ⟨_, Grammar.Gives.seq_failed first _, .failed⟩
  | choice _ ih =>
    obtain ⟨-, trackedFirst⟩ := Option.ite_none_right_eq_some.mp tracked
    obtain ⟨_, first, alike⟩ := ih trackedFirst here
    cases alike with
    | matched nodes after => exact ⟨_, Grammar.Gives.choice first _, .matched nodes after⟩
  | choiceFailed _ _ ihFirst ihSecond =>
    obtain ⟨same, trackedFirst⟩ := Option.ite_none_right_eq_some.mp tracked
    obtain ⟨_, first, alike⟩ := ihFirst trackedFirst here
    cases alike with
    | failed =>
      obtain ⟨_, second, alike⟩ := ihSecond (same.symm.trans trackedFirst) here
      exact ⟨_, Grammar.Gives.choice_of_failed first second, alike⟩
  | many _ _ ihFirst ihFurther =>
    obtain ⟨back, rfl⟩ := eq_of_repeated tracked
    obtain ⟨_, first, alike⟩ := ihFirst back here
    cases alike with
    | matched nodes after =>
      obtain ⟨_, further, alike⟩ := ihFurther tracked after
      cases alike with
      | matched others last =>
        exact ⟨_, Grammar.Gives.many first further, .matched (keeps.append nodes others) last⟩
  | manyNone _ ih =>
    obtain ⟨back, rfl⟩ := eq_of_repeated tracked
    obtain ⟨_, first, alike⟩ := ih back here
    cases alike with
    | failed =>
      exact ⟨_, Grammar.Gives.many_of_failed first, .matched none (keeps.places_of_begins here)⟩
  | optional _ ih =>
    obtain ⟨back, rfl⟩ := eq_of_repeated tracked
    obtain ⟨_, item, alike⟩ := ih back here
    cases alike with
    | matched nodes after => exact ⟨_, Grammar.Gives.optional item, .matched nodes after⟩
  | optionalNone _ ih =>
    obtain ⟨back, rfl⟩ := eq_of_repeated tracked
    obtain ⟨_, item, alike⟩ := ih back here
    cases alike with
    | failed =>
      exact ⟨_, Grammar.Gives.optional_of_failed item, .matched none (keeps.places_of_begins here)⟩
  | absent _ ih =>
    obtain ⟨back, rfl⟩ := eq_of_repeated tracked
    obtain ⟨_, item, alike⟩ := ih back here
    cases alike with
    | failed => exact ⟨_, Grammar.Gives.absent item, .matched none (keeps.places_of_begins here)⟩
  | absentFailed _ ih =>
    obtain ⟨back, rfl⟩ := eq_of_repeated tracked
    obtain ⟨_, item, alike⟩ := ih back here
    cases alike with
    | matched => exact ⟨_, Grammar.Gives.absent_failed item, .failed⟩
  | nextTight tight _ ih =>
    obtain ⟨_, item, alike⟩ := ih tracked (keeps.begins_of_tight tight here)
    exact ⟨_, (Grammar.skips_of_ne_free tight _).givesNext item, alike⟩
  | @next _ _ q gap _ skipped _ ihSkipped ihItem =>
    -- what is skipped is compared as a whole, or as any pattern is
    have begins : ∃ outcome', g.Gives .atomic g.trivia p' outcome' ∧
        Outcome.Alike (T.skipped s) (.matched gap q) outcome' := by
      rcases keeps.trivia s with whole | ⟨back, begins⟩
      · exact whole here skipped
      · obtain ⟨_, gives, alike⟩ := ihSkipped back (keeps.begins_of_tight (by decide) here)
        cases alike with
        | matched nodes after => exact ⟨_, gives, .matched nodes (begins _ _ after)⟩
    obtain ⟨_, trivia, alike⟩ := begins
    cases alike with
    | matched nodes after =>
      obtain ⟨_, item, alike⟩ := ihItem tracked after
      exact ⟨_, Grammar.givesNext_of_trivia trivia item, keeps.prepend nodes alike⟩
  | nextFailed skipped ih =>
    have fails : g.Gives .atomic g.trivia p' .failed := by
      rcases keeps.trivia s with whole | ⟨back, -⟩
      · obtain ⟨_, gives, alike⟩ := whole here skipped
        cases alike with
        | failed => exact gives
      · obtain ⟨_, gives, alike⟩ := ih back (keeps.begins_of_tight (by decide) here)
        cases alike with
        | failed => exact gives
    exact ⟨_, Grammar.givesNext_failed fails, .failed⟩
  | more _ _ ihItem ihFurther =>
    obtain ⟨back, rfl⟩ := eq_of_repeated tracked
    obtain ⟨_, item, alike⟩ := ihItem back here
    cases alike with
    | matched nodes after =>
      obtain ⟨_, further, alike⟩ := ihFurther tracked after
      cases alike with
      | matched others last =>
        exact ⟨_, Grammar.GivesNext.more item further, .matched (keeps.append nodes others) last⟩
  | moreNone _ ih =>
    obtain ⟨back, rfl⟩ := eq_of_repeated tracked
    obtain ⟨_, item, alike⟩ := ih back here
    cases alike with
    | failed => exact ⟨_, Grammar.GivesNext.stop item, .matched none here⟩

end Tracking.Keeps

end Tracking

/-! ## Comparisons that stay the same -/

/-- A comparison as a tracking with a single state. -/
def Comparison.tracking (C : Comparison ρ) : Tracking ρ Unit where
  places _ := C.places
  begins _ _ := C.places
  nodes := C.nodes

/-- A known leaf leads back to the single state. -/
def knownStep (known : Pattern ρ → Bool) (_ : Unit) (a : Pattern ρ) : Option Unit :=
  if known a then some () else none

theorem Pattern.track_of_walks {known : Pattern ρ → Bool} {a : Pattern ρ}
    (walks : a.walks known = true) : a.track (knownStep known) () = some () := by
  induction a with
  | seq a b iha ihb | choice a b iha ihb =>
    obtain ⟨walksFirst, walksSecond⟩ := Bool.and_eq_true_iff.mp walks
    simp [track, iha walksFirst, ihb walksSecond]
  | many a ih | optional a ih | absent a ih => simp [track, ih walks]
  | _ => exact if_pos walks

namespace Comparison.Keeps

variable {C : Comparison ρ} {g : Grammar ρ} {known : Mode → Pattern ρ → Bool}

/-- In its single state a comparison is kept by the leaves that it knows. -/
theorem tracking (keeps : C.Keeps g known) :
    C.tracking.Keeps g fun mode => knownStep (known mode) where
  nil := keeps.nil
  append := keeps.append
  places_of_begins here := here
  begins_of_tight _ here := here
  atom leads notRule := keeps.atom (Option.ite_none_right_eq_some.mp leads).1 notRule
  rule leads := by
    rcases keeps.rule (Option.ite_none_right_eq_some.mp leads).1 with whole | ⟨walks, kept⟩
    · exact .inl whole
    · exact .inr ⟨Pattern.track_of_walks walks, fun _ _ here => here,
        fun _ _ _ _ _ _ here after same => kept here after same⟩
  trivia _ := by
    rcases keeps.trivia with whole | walks
    · exact .inl whole
    · exact .inr ⟨Pattern.track_of_walks walks, fun _ _ here => here⟩

theorem prepend (keeps : C.Keeps g known) {xs ys : List (Node ρ)} {outcome outcome' : Outcome ρ}
    (first : C.nodes xs ys) (second : outcome.Alike C outcome') :
    (outcome.prepend xs).Alike C (outcome'.prepend ys) :=
  keeps.tracking.prepend (t := ()) first second

/-- **Patterns that are put together from known leaves are steady.** -/
theorem steady (keeps : C.Keeps g known) {goal : Goal ρ} (walks : goal.walks known = true) :
    g.Steady C goal := by
  have tracked : goal.track (fun mode => knownStep (known mode)) () = some () := by
    cases goal with
    | pattern mode a | next mode a => exact Pattern.track_of_walks walks
    | more mode a => exact Pattern.track_of_walks (a := .many a) walks
  intro p p' outcome here evaluates
  refine keeps.tracking.leads tracked ?_ evaluates
  cases goal <;> exact here

theorem steady_seq (keeps : C.Keeps g known) {mode : Mode} {a b : Pattern ρ}
    (first : g.Steady C (.pattern mode a)) (second : g.Steady C (.next mode b)) :
    g.Steady C (.pattern mode (.seq a b)) := by
  intro p p' outcome here h
  cases h with
  | seq evaluates evaluates' =>
    obtain ⟨_, gives, alike⟩ := first here evaluates
    cases alike with
    | matched nodes after =>
      obtain ⟨_, gives', alike⟩ := second after evaluates'
      exact ⟨_, Grammar.Gives.seq_next gives gives', keeps.prepend nodes alike⟩
  | seqFailed evaluates =>
    obtain ⟨_, gives, alike⟩ := first here evaluates
    cases alike with
    | failed => exact ⟨_, Grammar.Gives.seq_failed gives _, .failed⟩

theorem steady_next (keeps : C.Keeps g known) {a : Pattern ρ}
    (trivia : g.Steady C (.pattern .atomic g.trivia)) (item : g.Steady C (.pattern .free a)) :
    g.Steady C (.next .free a) := by
  intro p p' outcome here h
  cases h with
  | nextTight tight => exact absurd rfl tight
  | next skipped evaluates =>
    obtain ⟨_, gives, alike⟩ := trivia here skipped
    cases alike with
    | matched nodes after =>
      obtain ⟨_, gives', alike⟩ := item after evaluates
      exact ⟨_, Grammar.givesNext_of_trivia gives gives', keeps.prepend nodes alike⟩
  | nextFailed skipped =>
    obtain ⟨_, gives, alike⟩ := trivia here skipped
    cases alike with
    | failed => exact ⟨_, Grammar.givesNext_failed gives, .failed⟩

end Comparison.Keeps

end ScriptTrace.Peg
