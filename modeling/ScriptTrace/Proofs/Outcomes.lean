import ScriptTrace.Proofs.Matching

/-!
# Outcomes without a bound

`Grammar.run` is a recursion on a bound, and carries a log along.  Neither says anything about the
grammar.  This file forgets both: a pattern *gives* an outcome at a place if it does so under every
bound that is large enough, whatever the log (`Grammar.Gives`).

## Why a larger bound does no harm

Two matchers are compared by a simulation (`Matcher.Sim`): from related places, an outcome of the
first that is not cut off is an outcome of the second, with the same nodes and with a related place
after it.  Every combination of matchers keeps this, so two readings of a grammar are compared by
looking at its leaves.  With equal places the simulation says that a larger bound changes nothing
(`Grammar.sim_run`).

## Texts

What a grammar does with a text hardly depends on where the text stands.  So the rules for putting
matches together speak of texts: `Grammar.Takes` says that a pattern matches and leaves a given rest
of the text, and what is known of the nodes; `Grammar.Refuses` says that it fails.  There is one
rule for each way in which a pattern can take a text or refuse it.

* `Grammar.Gives`, `Grammar.Gives.unique`, `Grammar.gives_of_run`: outcomes.
* `Grammar.Takes`, `Grammar.Refuses`: what a pattern does with a text.
-/

namespace ScriptTrace.Peg

variable {ρ : Type}

/-! ## Outcomes of the combinations -/

namespace Matcher

variable (first second item : Matcher ρ) (p : Place) (log : FailureLog ρ)

theorem fst_andThen : (first.andThen second p log).1 =
    match (first p log).1 with
    | .matched nodes q => (second q (first p log).2).1.prepend nodes
    | outcome => outcome := by
  rw [andThen]
  rcases first p log with ⟨_ | _ | _, _⟩ <;> rfl

theorem fst_orElse : (first.orElse second p log).1 =
    match (first p log).1 with
    | .failed => (second p (first p log).2).1
    | outcome => outcome := by
  rw [orElse]
  rcases first p log with ⟨_ | _ | _, _⟩ <;> rfl

theorem fst_absent : (absent item p log).1 =
    match (item p log).1 with
    | .matched _ _ => .failed
    | .failed => .matched [] p
    | .exhausted => .exhausted := by
  rw [absent]
  rcases item p log with ⟨_ | _ | _, _⟩ <;> rfl

theorem fst_iterate (bound : Nat) : (iterate item (bound + 1) p log).1 =
    match (item p log).1 with
    | .matched nodes q => (iterate item bound q (item p log).2).1.prepend nodes
    | .failed => .matched [] p
    | .exhausted => .exhausted := by
  rw [iterate]
  rcases item p log with ⟨_ | _ | _, _⟩ <;> rfl

theorem fst_asRule (rule : ρ) (mode : Mode) (negated : Bool) :
    (asRule rule mode negated item p log).1 =
      match (item p log).1 with
      | .matched nodes q =>
        if mode = .atomic then .matched nodes q
        else .matched [.mk rule p.offset q.offset (p.upTo q.offset) nodes] q
      | outcome => outcome := by
  rw [asRule]
  rcases item p log with ⟨_ | _ | _, _⟩
  · by_cases atomic : mode = .atomic <;> simp [atomic]
  · by_cases silent : mode = .atomic || negated <;> simp [silent]
  · rfl

theorem nothing_andThen : (nothing : Matcher ρ).andThen second = second := by
  funext p log
  show ((second p log).1.prepend [], (second p log).2) = second p log
  rcases second p log with ⟨_ | _ | _, _⟩ <;> rfl

end Matcher

/-! ## Two matchers side by side -/

/-- The second outcome is the first, up to a relation between the places after the match; if the
first was cut off, it can be any. -/
inductive Outcome.Sim (R : Place → Place → Prop) : Outcome ρ → Outcome ρ → Prop
  | exhausted (outcome : Outcome ρ) : Sim R .exhausted outcome
  | failed : Sim R .failed .failed
  | matched (nodes : List (Node ρ)) {q q' : Place} (after : R q q') :
      Sim R (.matched nodes q) (.matched nodes q')

theorem Outcome.Sim.prepend {R : Place → Place → Prop} {x y : Outcome ρ} (h : x.Sim R y)
    (nodes : List (Node ρ)) : (x.prepend nodes).Sim R (y.prepend nodes) := by
  cases h with
  | exhausted y => exact .exhausted _
  | failed => exact .failed
  | matched more after => exact .matched _ after

namespace Matcher

variable {R : Place → Place → Prop} {m m' first first' second second' item item' : Matcher ρ}

/-- From related places, the second matcher answers what the first does. -/
def Sim (R : Place → Place → Prop) (m m' : Matcher ρ) : Prop :=
  ∀ p p' log log', R p p' → (m p log).1.Sim R (m' p' log').1

theorem Sim.nothing : Sim R (nothing : Matcher ρ) nothing :=
  fun _ _ _ _ here => .matched [] here

theorem Sim.andThen (hf : Sim R first first') (hs : Sim R second second') :
    Sim R (first.andThen second) (first'.andThen second') := by
  intro p p' log log' here
  have answers := hf p p' log log' here
  rw [fst_andThen, fst_andThen]
  generalize (first p log).1 = outcome at answers ⊢
  generalize (first' p' log').1 = outcome' at answers ⊢
  cases answers with
  | exhausted _ => exact .exhausted _
  | failed => exact .failed
  | matched nodes after => exact (hs _ _ _ _ after).prepend nodes

theorem Sim.orElse (hf : Sim R first first') (hs : Sim R second second') :
    Sim R (first.orElse second) (first'.orElse second') := by
  intro p p' log log' here
  have answers := hf p p' log log' here
  rw [fst_orElse, fst_orElse]
  generalize (first p log).1 = outcome at answers ⊢
  generalize (first' p' log').1 = outcome' at answers ⊢
  cases answers with
  | exhausted _ => exact .exhausted _
  | failed => exact hs p p' _ _ here
  | matched nodes after => exact .matched nodes after

theorem Sim.absent (hi : Sim R item item') : Sim R (absent item) (absent item') := by
  intro p p' log log' here
  have answers := hi p p' log log' here
  rw [fst_absent, fst_absent]
  generalize (item p log).1 = outcome at answers ⊢
  generalize (item' p' log').1 = outcome' at answers ⊢
  cases answers with
  | exhausted _ => exact .exhausted _
  | failed => exact .matched [] here
  | matched nodes after => exact .failed

theorem Sim.iterate (hi : Sim R item item') {bound bound' : Nat} (le : bound ≤ bound') :
    Sim R (iterate item bound) (Matcher.iterate item' bound') := by
  induction bound generalizing bound' with
  | zero => exact fun _ _ _ _ _ => .exhausted _
  | succ bound ih =>
    obtain ⟨more, rfl⟩ : ∃ more, bound' = more + 1 := ⟨bound' - 1, by omega⟩
    intro p p' log log' here
    have answers := hi p p' log log' here
    rw [fst_iterate, fst_iterate]
    generalize (item p log).1 = outcome at answers ⊢
    generalize (item' p' log').1 = outcome' at answers ⊢
    cases answers with
    | exhausted _ => exact .exhausted _
    | failed => exact .matched [] here
    | matched nodes after =>
      exact (ih (Nat.le_of_succ_le_succ le) _ _ _ _ after).prepend nodes

theorem Sim.repeated (hf : Sim R first first') (hs : Sim R second second') {bound bound' : Nat}
    (le : bound ≤ bound') :
    Sim R (repeated bound first second) (Matcher.repeated bound' first' second') :=
  (hf.andThen (hs.iterate le)).orElse .nothing

/-- A rule that leaves no node. -/
theorem Sim.asRule_atomic (hi : Sim R item item') (rule : ρ) (negated negated' : Bool) :
    Sim R (asRule rule .atomic negated item) (asRule rule .atomic negated' item') := by
  intro p p' log log' here
  have answers := hi p p' log log' here
  rw [fst_asRule, fst_asRule]
  generalize (item p log).1 = outcome at answers ⊢
  generalize (item' p' log').1 = outcome' at answers ⊢
  cases answers with
  | exhausted _ => exact .exhausted _
  | failed => exact .failed
  | matched nodes after => exact .matched nodes after

/-- A rule that may leave a node, from the same place. -/
theorem Sim.asRule (hi : Sim Eq item item') (rule : ρ) (mode : Mode) (negated negated' : Bool) :
    Sim Eq (asRule rule mode negated item) (asRule rule mode negated' item') := by
  by_cases atomic : mode = .atomic
  · rw [atomic]
    exact hi.asRule_atomic rule negated negated'
  · rintro p _ log log' rfl
    have answers := hi p p log log' rfl
    rw [fst_asRule, fst_asRule]
    generalize (item p log).1 = outcome at answers ⊢
    generalize (item' p log').1 = outcome' at answers ⊢
    cases answers with
    | exhausted _ => exact .exhausted _
    | failed => exact .failed
    | matched nodes same =>
      rw [same]
      simp only [atomic, if_false]
      exact .matched _ rfl

end Matcher

namespace Grammar

variable (g : Grammar ρ)

/-- What is skipped between the parts of a sequence. -/
def skip (depth : Nat) (around : Surroundings) : Matcher ρ :=
  if around.mode = .free then g.run depth { around with mode := .atomic } g.trivia
  else Matcher.nothing

/-- **A larger bound changes nothing**, nor does what the log holds, nor whether failures are noted
in it. -/
theorem sim_run {depth depth' : Nat} (le : depth ≤ depth') (mode : Mode) (negated negated' : Bool)
    (pattern : Pattern ρ) :
    Matcher.Sim Eq (g.run depth ⟨mode, negated⟩ pattern)
      (g.run depth' ⟨mode, negated'⟩ pattern) := by
  induction depth generalizing depth' mode negated negated' pattern with
  | zero => exact fun _ _ _ _ _ => .exhausted _
  | succ depth ih =>
    obtain ⟨more, rfl⟩ : ∃ more, depth' = more + 1 := ⟨depth' - 1, by omega⟩
    have le : depth ≤ more := Nat.le_of_succ_le_succ le
    have skip : Matcher.Sim Eq (g.skip depth ⟨mode, negated⟩) (g.skip more ⟨mode, negated'⟩) := by
      rw [Grammar.skip, Grammar.skip]
      by_cases free : mode = .free
      · rw [if_pos free, if_pos free]
        exact ih le .atomic negated negated' g.trivia
      · rw [if_neg free, if_neg free]
        exact .nothing
    cases pattern with
    | text chars =>
      rintro p _ log log' rfl
      simp only [run, Matcher.text]
      cases p.eat? chars with
      | some q => exact .matched [] rfl
      | none => exact .failed
    | char k =>
      rintro ⟨offset, _ | ⟨c, rest⟩⟩ _ log log' rfl
      · exact .failed
      · simp only [run, Matcher.char]
        cases k.contains c with
        | true => exact .matched [] rfl
        | false => exact .failed
    | atStart =>
      rintro p _ log log' rfl
      simp only [run, Matcher.when]
      split
      · exact .matched [] rfl
      · exact .failed
    | atEnd =>
      rintro p _ log log' rfl
      simp only [run, Matcher.when]
      split
      · exact .matched [] rfl
      · exact .failed
    | rule name =>
      have body := ih le ((g.kind name).inner mode) negated negated' (g.body name)
      rintro p _ log log' rfl
      simp only [run]
      split
      · exact body.asRule name _ negated negated' p p log log' rfl
      · exact body p p log log' rfl
    | seq a b => exact (ih le mode negated negated' a).andThen (skip.andThen (ih le mode _ _ b))
    | choice a b => exact (ih le mode negated negated' a).orElse (ih le mode negated negated' b)
    | many a =>
      have item := ih le mode negated negated' a
      exact item.repeated (skip.andThen item) le
    | optional a => exact (ih le mode negated negated' a).orElse .nothing
    | absent a => exact (ih le mode (!negated) (!negated') a).absent

/-! ## Outcomes -/

/-- A pattern gives an outcome at a place, under every bound that is large enough. -/
def Gives (mode : Mode) (pattern : Pattern ρ) (p : Place) (outcome : Outcome ρ) : Prop :=
  ∃ enough, ∀ depth ≥ enough, ∀ negated log,
    (g.run depth ⟨mode, negated⟩ pattern p log).1 = outcome

variable {g} {mode : Mode} {pattern a b : Pattern ρ} {p q : Place}

/-- A pattern gives at most one outcome. -/
theorem Gives.unique {x y : Outcome ρ} (h : g.Gives mode pattern p x)
    (h' : g.Gives mode pattern p y) : x = y := by
  obtain ⟨enough, gives⟩ := h
  obtain ⟨enough', gives'⟩ := h'
  have one := gives (max enough enough') (Nat.le_max_left _ _) false {}
  have other := gives' (max enough enough') (Nat.le_max_right _ _) false {}
  exact one.symm.trans other

/-- What a run answers that was not cut off is what the pattern gives. -/
theorem gives_of_run {depth : Nat} {negated : Bool} {log : FailureLog ρ}
    (settled : (g.run depth ⟨mode, negated⟩ pattern p log).1 ≠ .exhausted) :
    g.Gives mode pattern p (g.run depth ⟨mode, negated⟩ pattern p log).1 := by
  refine ⟨depth, fun depth' le negated' log' => ?_⟩
  have sim := g.sim_run le mode negated negated' pattern p p log log' rfl
  generalize (g.run depth ⟨mode, negated⟩ pattern p log).1 = outcome at settled sim ⊢
  generalize (g.run depth' ⟨mode, negated'⟩ pattern p log').1 = outcome' at sim ⊢
  cases sim with
  | exhausted _ => exact absurd rfl settled
  | failed => rfl
  | matched nodes after => rw [after]

/-- It is enough to look one level into the pattern. -/
theorem Gives.of_succ {outcome : Outcome ρ} (enough : Nat)
    (h : ∀ depth ≥ enough, ∀ negated log,
      (g.run (depth + 1) ⟨mode, negated⟩ pattern p log).1 = outcome) :
    g.Gives mode pattern p outcome := by
  refine ⟨enough + 1, fun depth le negated log => ?_⟩
  obtain ⟨depth, rfl⟩ : ∃ d, depth = d + 1 := ⟨depth - 1, by omega⟩
  exact h depth (by omega) negated log

theorem gives_text (chars : List Char) (p : Place) :
    g.Gives mode (.text chars) p
      (match p.eat? chars with
      | some q => .matched [] q
      | none => .failed) := by
  refine .of_succ 0 fun depth _ negated log => ?_
  simp only [run, Matcher.text]
  cases p.eat? chars <;> rfl

theorem gives_char {k : CharClass} {c : Char} (inside : k.contains c = true) (offset : Nat)
    (rest : List Char) :
    g.Gives mode (.char k) ⟨offset, c :: rest⟩ (.matched [] (Place.after offset c rest)) := by
  refine .of_succ 0 fun depth _ negated log => ?_
  simp only [run, Matcher.char, if_pos inside]

theorem gives_atStart (text : List Char) :
    g.Gives mode .atStart ⟨0, text⟩ (.matched [] ⟨0, text⟩) :=
  .of_succ 0 fun _ _ _ _ => rfl

theorem gives_atEnd (offset : Nat) :
    g.Gives mode .atEnd ⟨offset, []⟩ (.matched [] ⟨offset, []⟩) :=
  .of_succ 0 fun _ _ _ _ => rfl

/-- The node of a rule stands around the nodes of its pattern. -/
theorem Gives.rule {name : ρ} {nodes : List (Node ρ)}
    (h : g.Gives ((g.kind name).inner mode) (g.body name) p (.matched nodes q)) :
    g.Gives mode (.rule name) p
      (.matched (g.nodesOf mode name p.offset q.offset (p.upTo q.offset) nodes) q) := by
  obtain ⟨enough, body⟩ := h
  refine .of_succ enough fun depth le negated log => ?_
  simp only [run, nodesOf]
  by_cases visible : (g.kind name).isVisible = true
  · rw [if_pos visible, Matcher.fst_asRule, body depth le negated log]
    by_cases atomic : (g.kind name).outer mode = .atomic <;> simp [visible, atomic]
  · rw [if_neg visible, if_neg fun kept => visible kept.1]
    exact body depth le negated log

theorem Gives.rule_failed {name : ρ}
    (h : g.Gives ((g.kind name).inner mode) (g.body name) p .failed) :
    g.Gives mode (.rule name) p .failed := by
  obtain ⟨enough, body⟩ := h
  refine .of_succ enough fun depth le negated log => ?_
  simp only [run]
  split
  · rw [Matcher.fst_asRule, body depth le negated log]
  · exact body depth le negated log

/-- What is skipped at a place, up to the next one. -/
def Skips (g : Grammar ρ) (mode : Mode) (p q : Place) : Prop :=
  ∃ enough, ∀ depth ≥ enough, ∀ negated log,
    (g.skip depth ⟨mode, negated⟩ p log).1 = .matched [] q

theorem skips_of_ne_free (h : mode ≠ .free) (p : Place) : g.Skips mode p p := by
  refine ⟨0, fun depth _ negated log => ?_⟩
  rw [skip, if_neg h]
  rfl

theorem skips_of_trivia (h : g.Gives .atomic g.trivia p (.matched [] q)) :
    g.Skips .free p q := by
  obtain ⟨enough, trivia⟩ := h
  refine ⟨enough, fun depth le negated log => ?_⟩
  rw [skip, if_pos rfl]
  exact trivia depth le negated log

/-- What a pattern gives after what is skipped. -/
def GivesNext (g : Grammar ρ) (mode : Mode) (b : Pattern ρ) (p : Place)
    (outcome : Outcome ρ) : Prop :=
  ∃ enough, ∀ depth ≥ enough, ∀ negated log,
    ((g.skip depth ⟨mode, negated⟩).andThen (g.run depth ⟨mode, negated⟩ b) p log).1 = outcome

/-- The item of a sequence after what is skipped. -/
theorem Skips.givesNext {outcome : Outcome ρ} (skips : g.Skips mode p q)
    (h : g.Gives mode b q outcome) : g.GivesNext mode b p outcome := by
  obtain ⟨enough, skipped⟩ := skips
  obtain ⟨enough', gives⟩ := h
  refine ⟨max enough enough', fun depth le negated log => ?_⟩
  rw [Matcher.fst_andThen, skipped depth (by omega) negated log]
  simp only
  rw [gives depth (by omega) negated _]
  cases outcome <;> rfl

theorem Gives.seq_next {nodes : List (Node ρ)} {outcome : Outcome ρ}
    (first : g.Gives mode a p (.matched nodes q)) (second : g.GivesNext mode b q outcome) :
    g.Gives mode (.seq a b) p (outcome.prepend nodes) := by
  obtain ⟨enough, first⟩ := first
  obtain ⟨enough', second⟩ := second
  refine .of_succ (max enough enough') fun depth le negated log => ?_
  show (Matcher.andThen _ ((g.skip depth ⟨mode, negated⟩).andThen _) p log).1 = _
  rw [Matcher.fst_andThen, first depth (by omega) negated log]
  exact congrArg (Outcome.prepend nodes) (second depth (by omega) negated _)

theorem Gives.seq {nodes : List (Node ρ)} {r : Place} {outcome : Outcome ρ}
    (first : g.Gives mode a p (.matched nodes q)) (skips : g.Skips mode q r)
    (second : g.Gives mode b r outcome) :
    g.Gives mode (.seq a b) p (outcome.prepend nodes) :=
  first.seq_next (skips.givesNext second)

theorem Gives.seq_failed (first : g.Gives mode a p .failed) (b : Pattern ρ) :
    g.Gives mode (.seq a b) p .failed := by
  obtain ⟨enough, first⟩ := first
  refine .of_succ enough fun depth le negated log => ?_
  show (Matcher.andThen _ _ p log).1 = _
  rw [Matcher.fst_andThen, first depth le negated log]

theorem Gives.choice {nodes : List (Node ρ)} (first : g.Gives mode a p (.matched nodes q))
    (b : Pattern ρ) : g.Gives mode (.choice a b) p (.matched nodes q) := by
  obtain ⟨enough, first⟩ := first
  refine .of_succ enough fun depth le negated log => ?_
  show (Matcher.orElse _ _ p log).1 = _
  rw [Matcher.fst_orElse, first depth le negated log]

theorem Gives.choice_of_failed {outcome : Outcome ρ} (first : g.Gives mode a p .failed)
    (second : g.Gives mode b p outcome) : g.Gives mode (.choice a b) p outcome := by
  obtain ⟨enough, first⟩ := first
  obtain ⟨enough', second⟩ := second
  refine .of_succ (max enough enough') fun depth le negated log => ?_
  show (Matcher.orElse _ _ p log).1 = _
  rw [Matcher.fst_orElse, first depth (by omega) negated log]
  exact second depth (by omega) negated _

theorem Gives.optional {nodes : List (Node ρ)} (item : g.Gives mode a p (.matched nodes q)) :
    g.Gives mode (.optional a) p (.matched nodes q) := by
  obtain ⟨enough, item⟩ := item
  refine .of_succ enough fun depth le negated log => ?_
  show (Matcher.orElse _ _ p log).1 = _
  rw [Matcher.fst_orElse, item depth le negated log]

theorem Gives.optional_of_failed (item : g.Gives mode a p .failed) :
    g.Gives mode (.optional a) p (.matched [] p) := by
  obtain ⟨enough, item⟩ := item
  refine .of_succ enough fun depth le negated log => ?_
  show (Matcher.orElse _ _ p log).1 = _
  rw [Matcher.fst_orElse, item depth le negated log]
  rfl

theorem Gives.absent (item : g.Gives mode a p .failed) :
    g.Gives mode (.absent a) p (.matched [] p) := by
  obtain ⟨enough, item⟩ := item
  refine .of_succ enough fun depth le negated log => ?_
  show (Matcher.absent _ p log).1 = _
  rw [Matcher.fst_absent, item depth le (!negated) log]

theorem Gives.absent_failed {nodes : List (Node ρ)} (item : g.Gives mode a p (.matched nodes q)) :
    g.Gives mode (.absent a) p .failed := by
  obtain ⟨enough, item⟩ := item
  refine .of_succ enough fun depth le negated log => ?_
  show (Matcher.absent _ p log).1 = _
  rw [Matcher.fst_absent, item depth le (!negated) log]

/-- What a pattern gives as a further item of a repetition, again and again. -/
def GivesMore (g : Grammar ρ) (mode : Mode) (item : Pattern ρ) (p : Place)
    (outcome : Outcome ρ) : Prop :=
  ∃ enough, ∀ depth ≥ enough, ∀ bound ≥ enough, ∀ negated log,
    (Matcher.iterate ((g.skip depth ⟨mode, negated⟩).andThen (g.run depth ⟨mode, negated⟩ item))
      bound p log).1 = outcome

theorem GivesNext.stop (item : g.GivesNext mode a p .failed) :
    g.GivesMore mode a p (.matched [] p) := by
  obtain ⟨enough, item⟩ := item
  refine ⟨enough + 1, fun depth le bound le' negated log => ?_⟩
  obtain ⟨bound, rfl⟩ : ∃ d, bound = d + 1 := ⟨bound - 1, by omega⟩
  rw [Matcher.fst_iterate, item depth (by omega) negated log]

theorem GivesMore.stop (skips : g.Skips mode p q) (item : g.Gives mode a q .failed) :
    g.GivesMore mode a p (.matched [] p) :=
  (skips.givesNext item).stop

theorem GivesNext.more {nodes : List (Node ρ)} {outcome : Outcome ρ}
    (item : g.GivesNext mode a p (.matched nodes q)) (more : g.GivesMore mode a q outcome) :
    g.GivesMore mode a p (outcome.prepend nodes) := by
  obtain ⟨enough, item⟩ := item
  obtain ⟨enough', more⟩ := more
  refine ⟨max enough enough' + 1, fun depth le bound le' negated log => ?_⟩
  obtain ⟨bound, rfl⟩ : ∃ d, bound = d + 1 := ⟨bound - 1, by omega⟩
  rw [Matcher.fst_iterate, item depth (by omega) negated log]
  exact congrArg (Outcome.prepend nodes) (more depth (by omega) bound (by omega) negated _)

theorem GivesMore.next {nodes : List (Node ρ)} {r : Place} {outcome : Outcome ρ}
    (skips : g.Skips mode p q) (item : g.Gives mode a q (.matched nodes r))
    (more : g.GivesMore mode a r outcome) : g.GivesMore mode a p (outcome.prepend nodes) :=
  (skips.givesNext item).more more

theorem Gives.many_of_failed (item : g.Gives mode a p .failed) :
    g.Gives mode (.many a) p (.matched [] p) := by
  obtain ⟨enough, item⟩ := item
  refine .of_succ enough fun depth le negated log => ?_
  show (Matcher.orElse (Matcher.andThen _ _) _ p log).1 = _
  rw [Matcher.fst_orElse, Matcher.fst_andThen, item depth le negated log]
  rfl

theorem Gives.many {nodes more : List (Node ρ)} {r : Place}
    (item : g.Gives mode a p (.matched nodes q)) (rest : g.GivesMore mode a q (.matched more r)) :
    g.Gives mode (.many a) p (.matched (nodes ++ more) r) := by
  obtain ⟨enough, item⟩ := item
  obtain ⟨enough', rest⟩ := rest
  refine .of_succ (max enough enough') fun depth le negated log => ?_
  show (Matcher.orElse (Matcher.andThen _ (Matcher.iterate
    ((g.skip depth ⟨mode, negated⟩).andThen _) depth)) _ p log).1 = _
  rw [Matcher.fst_orElse, Matcher.fst_andThen, item depth (by omega) negated log]
  simp only
  rw [rest depth (by omega) depth (by omega) negated _]
  rfl

/-- Where blanks are not skipped, the first item of a repetition is matched as the further ones
are. -/
theorem GivesMore.gives_many (tight : mode ≠ .free) {nodes : List (Node ρ)}
    (h : g.GivesMore mode a p (.matched nodes q)) :
    g.Gives mode (.many a) p (.matched nodes q) := by
  obtain ⟨enough, more⟩ := h
  refine .of_succ enough fun depth le negated log => ?_
  have unrolled := more depth le (depth + 1) (by omega) negated log
  have skips : g.skip depth ⟨mode, negated⟩ = Matcher.nothing := if_neg tight
  rw [skips, Matcher.nothing_andThen, Matcher.fst_iterate] at unrolled
  show (Matcher.orElse (Matcher.andThen _ (Matcher.iterate
    ((g.skip depth ⟨mode, negated⟩).andThen _) depth)) _ p log).1 = _
  rw [skips, Matcher.nothing_andThen, Matcher.fst_orElse, Matcher.fst_andThen]
  cases item : (g.run depth ⟨mode, negated⟩ a p log).1 with
  | matched xs q' =>
    simp only [item] at unrolled ⊢
    rw [unrolled]
  | failed =>
    rw [item] at unrolled
    exact unrolled
  | exhausted =>
    rw [item] at unrolled
    exact nomatch unrolled

/-! ## Texts -/

section Texts

variable (g) (mode)

/-- Wherever a text stands, a pattern matches a first part of it, leaves a given rest, and has nodes
of which something is known. -/
def Takes (pattern : Pattern ρ) (text rest : List Char) (P : List (Node ρ) → Prop) : Prop :=
  ∀ offset, ∃ nodes stop, P nodes ∧
    g.Gives mode pattern ⟨offset, text⟩ (.matched nodes ⟨stop, rest⟩)

/-- Wherever a text stands, a pattern fails on it. -/
def Refuses (pattern : Pattern ρ) (text : List Char) : Prop :=
  ∀ offset, g.Gives mode pattern ⟨offset, text⟩ .failed

/-- As `Takes`, for the further items of a repetition. -/
def TakesMore (item : Pattern ρ) (text rest : List Char) (P : List (Node ρ) → Prop) : Prop :=
  ∀ offset, ∃ nodes stop, P nodes ∧
    g.GivesMore mode item ⟨offset, text⟩ (.matched nodes ⟨stop, rest⟩)

/-- Nothing is skipped where the text begins. -/
def Quiet (text : List Char) : Prop :=
  ∀ offset, g.Skips mode ⟨offset, text⟩ ⟨offset, text⟩

end Texts

variable {item : Pattern ρ} {text mid rest : List Char} {P Q S : List (Node ρ) → Prop}

theorem quiet_of_ne_free (h : mode ≠ .free) (text : List Char) : g.Quiet mode text :=
  fun _ => skips_of_ne_free h _

theorem quiet_of_refuses (trivia : g.trivia = .many item) (h : g.Refuses .atomic item text) :
    g.Quiet .free text := by
  refine fun offset => skips_of_trivia ?_
  rw [trivia]
  exact (h offset).many_of_failed

theorem Takes.mono (h : g.Takes mode a text rest P) (le : ∀ nodes, P nodes → Q nodes) :
    g.Takes mode a text rest Q := by
  intro offset
  obtain ⟨nodes, stop, known, gives⟩ := h offset
  exact ⟨nodes, stop, le nodes known, gives⟩

theorem takes_text (chars rest : List Char) :
    g.Takes mode (.text chars) (chars ++ rest) rest (· = []) := by
  intro offset
  refine ⟨[], offset + Text.byteLength chars, rfl, ?_⟩
  have eaten : Place.eat? ⟨offset, chars ++ rest⟩ chars =
      some ⟨offset + Text.byteLength chars, rest⟩ := Place.eat?_eq_some_iff.mpr ⟨rfl, rfl⟩
  have gives : g.Gives mode (.text chars) _ _ := gives_text chars ⟨offset, chars ++ rest⟩
  rwa [eaten] at gives

theorem refuses_text {chars : List Char} (h : ¬ chars <+: text) :
    g.Refuses mode (.text chars) text := by
  intro offset
  have gives : g.Gives mode (.text chars) _ _ := gives_text chars ⟨offset, text⟩
  cases eaten : Place.eat? ⟨offset, text⟩ chars with
  | none => rwa [eaten] at gives
  | some q => exact absurd ⟨q.rest, (Place.eat?_eq_some_iff.mp eaten).1.symm⟩ h

theorem takes_char {k : CharClass} {c : Char} (inside : k.contains c = true) (rest : List Char) :
    g.Takes mode (.char k) (c :: rest) rest (· = []) :=
  fun offset => ⟨[], _, rfl, gives_char inside offset rest⟩

theorem takes_atEnd : g.Takes mode .atEnd [] [] (· = []) :=
  fun offset => ⟨[], offset, rfl, gives_atEnd offset⟩

/-- A rule that leaves a node. -/
theorem Takes.node {name : ρ} (h : g.Takes ((g.kind name).inner mode) (g.body name) text rest P)
    (kept : (g.kind name).isVisible = true ∧ (g.kind name).outer mode ≠ .atomic) :
    g.Takes mode (.rule name) text rest fun nodes =>
      ∃ start stop taken children, nodes = [.mk name start stop taken children] ∧ P children := by
  intro offset
  obtain ⟨nodes, stop, known, gives⟩ := h offset
  refine ⟨_, stop, ?_, gives.rule⟩
  rw [nodesOf, if_pos kept]
  exact ⟨_, _, _, nodes, rfl, known⟩

/-- A rule that leaves the nodes of its pattern. -/
theorem Takes.silent {name : ρ} (h : g.Takes ((g.kind name).inner mode) (g.body name) text rest P)
    (dropped : ¬ ((g.kind name).isVisible = true ∧ (g.kind name).outer mode ≠ .atomic)) :
    g.Takes mode (.rule name) text rest P := by
  intro offset
  obtain ⟨nodes, stop, known, gives⟩ := h offset
  refine ⟨nodes, stop, known, ?_⟩
  have gives := gives.rule
  rwa [nodesOf, if_neg dropped] at gives

theorem Refuses.rule {name : ρ} (h : g.Refuses ((g.kind name).inner mode) (g.body name) text) :
    g.Refuses mode (.rule name) text :=
  fun offset => (h offset).rule_failed

theorem Takes.seq (first : g.Takes mode a text mid P) (quiet : g.Quiet mode mid)
    (second : g.Takes mode b mid rest Q) (join : ∀ xs ys, P xs → Q ys → S (xs ++ ys)) :
    g.Takes mode (.seq a b) text rest S := by
  intro offset
  obtain ⟨xs, stop, hx, gives⟩ := first offset
  obtain ⟨ys, stop', hy, gives'⟩ := second stop
  exact ⟨xs ++ ys, stop', join xs ys hx hy, gives.seq (quiet stop) gives'⟩

theorem Refuses.seq (first : g.Refuses mode a text) (b : Pattern ρ) :
    g.Refuses mode (.seq a b) text :=
  fun offset => (first offset).seq_failed b

theorem Takes.seq_refuses (first : g.Takes mode a text mid P) (quiet : g.Quiet mode mid)
    (second : g.Refuses mode b mid) : g.Refuses mode (.seq a b) text := by
  intro offset
  obtain ⟨xs, stop, -, gives⟩ := first offset
  exact gives.seq (quiet stop) (second stop)

theorem Takes.choice (first : g.Takes mode a text rest P) (b : Pattern ρ) :
    g.Takes mode (.choice a b) text rest P := by
  intro offset
  obtain ⟨nodes, stop, known, gives⟩ := first offset
  exact ⟨nodes, stop, known, gives.choice b⟩

theorem Takes.choice_of_refuses (first : g.Refuses mode a text)
    (second : g.Takes mode b text rest P) : g.Takes mode (.choice a b) text rest P := by
  intro offset
  obtain ⟨nodes, stop, known, gives⟩ := second offset
  exact ⟨nodes, stop, known, (first offset).choice_of_failed gives⟩

theorem Refuses.choice (first : g.Refuses mode a text) (second : g.Refuses mode b text) :
    g.Refuses mode (.choice a b) text :=
  fun offset => (first offset).choice_of_failed (second offset)

/-- One of several patterns, where those before it refuse the text. -/
theorem Takes.oneOf (n : Nat) {first : Pattern ρ} {others : List (Pattern ρ)}
    (taken : g.Takes mode a text rest P) (here : (first :: others)[n]? = some a)
    (refused : ∀ b ∈ (first :: others).take n, g.Refuses mode b text) :
    g.Takes mode (.oneOf first others) text rest P := by
  induction n generalizing first others with
  | zero =>
    obtain rfl : first = a := Option.some.inj here
    cases others with
    | nil => exact taken
    | cons next others => exact taken.choice _
  | succ n ih =>
    obtain ⟨now, further⟩ := List.forall_mem_cons.mp refused
    cases others with
    | nil => exact nomatch here
    | cons next others => exact .choice_of_refuses now (ih here further)

theorem Takes.optional (h : g.Takes mode a text rest P) :
    g.Takes mode (.optional a) text rest P := by
  intro offset
  obtain ⟨nodes, stop, known, gives⟩ := h offset
  exact ⟨nodes, stop, known, gives.optional⟩

theorem Refuses.takes_optional (h : g.Refuses mode a text) :
    g.Takes mode (.optional a) text text (· = []) :=
  fun offset => ⟨[], offset, rfl, (h offset).optional_of_failed⟩

theorem Refuses.takes_absent (h : g.Refuses mode a text) :
    g.Takes mode (.absent a) text text (· = []) :=
  fun offset => ⟨[], offset, rfl, (h offset).absent⟩

theorem Takes.refuses_absent (h : g.Takes mode a text rest P) :
    g.Refuses mode (.absent a) text := by
  intro offset
  obtain ⟨nodes, stop, -, gives⟩ := h offset
  exact gives.absent_failed

theorem Refuses.takes_many (h : g.Refuses mode a text) :
    g.Takes mode (.many a) text text (· = []) :=
  fun offset => ⟨[], offset, rfl, (h offset).many_of_failed⟩

theorem Takes.many (first : g.Takes mode a text mid P) (more : g.TakesMore mode a mid rest Q)
    (join : ∀ xs ys, P xs → Q ys → S (xs ++ ys)) : g.Takes mode (.many a) text rest S := by
  intro offset
  obtain ⟨xs, stop, hx, gives⟩ := first offset
  obtain ⟨ys, stop', hy, gives'⟩ := more stop
  exact ⟨xs ++ ys, stop', join xs ys hx hy, gives.many gives'⟩

theorem Refuses.takesMore (h : g.Refuses mode a text) (quiet : g.Quiet mode text) :
    g.TakesMore mode a text text (· = []) :=
  fun offset => ⟨[], offset, rfl, .stop (quiet offset) (h offset)⟩

theorem Takes.takesMore (first : g.Takes mode a text mid P) (quiet : g.Quiet mode text)
    (more : g.TakesMore mode a mid rest Q) (join : ∀ xs ys, P xs → Q ys → S (xs ++ ys)) :
    g.TakesMore mode a text rest S := by
  intro offset
  obtain ⟨xs, stop, hx, gives⟩ := first offset
  obtain ⟨ys, stop', hy, gives'⟩ := more stop
  exact ⟨xs ++ ys, stop', join xs ys hx hy, .next (quiet offset) gives gives'⟩

theorem TakesMore.takes_many (h : g.TakesMore mode a text rest P) (tight : mode ≠ .free) :
    g.Takes mode (.many a) text rest P := by
  intro offset
  obtain ⟨nodes, stop, known, more⟩ := h offset
  exact ⟨nodes, stop, known, more.gives_many tight⟩

end Grammar

end ScriptTrace.Peg
