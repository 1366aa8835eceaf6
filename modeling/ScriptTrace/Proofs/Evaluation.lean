import ScriptTrace.Proofs.Progress

/-!
# Evaluation without a bound

The matcher counts its depth down, and so it ends by construction; whether matching ends is a
question about the rules of matching without that count.  `Grammar.Evaluates` is the relation that
these rules define.  A derivation is a finite tree, so a match that would go on for ever has no
outcome.

There are three kinds of goals: a pattern, a pattern after what is skipped, and the further items of
a repetition.  A repetition goes on for as long as its item matches, a choice never comes back to an
alternative that it has left, and nothing is said of what the parts of a pattern take.

* `Goal`: what is to be matched.
* `Grammar.Evaluates`: how a goal ends at a place.
* `Grammar.Evaluates.gives`: the matcher ends in the same way, under every bound that is large
  enough.
-/

namespace ScriptTrace.Peg

variable {ρ : Type}

/-- Something to match at a place. -/
inductive Goal (ρ : Type) where
  /-- A pattern. -/
  | pattern (mode : Mode) (pattern : Pattern ρ)
  /-- A pattern after what is skipped. -/
  | next (mode : Mode) (pattern : Pattern ρ)
  /-- As many further items of a repetition as there are. -/
  | more (mode : Mode) (item : Pattern ρ)

namespace Grammar

/-- How a goal ends at a place. -/
inductive Evaluates (g : Grammar ρ) : Goal ρ → Place → Outcome ρ → Prop
  | text {mode : Mode} {chars : List Char} {p q : Place} (eaten : p.eat? chars = some q) :
      Evaluates g (.pattern mode (.text chars)) p (.matched [] q)
  | textFailed {mode : Mode} {chars : List Char} {p : Place} (refused : p.eat? chars = none) :
      Evaluates g (.pattern mode (.text chars)) p .failed
  | char {mode : Mode} {k : CharClass} {offset : Nat} {c : Char} {rest : List Char}
      (inside : k.contains c = true) :
      Evaluates g (.pattern mode (.char k)) ⟨offset, c :: rest⟩
        (.matched [] (Place.after offset c rest))
  | charFailed {mode : Mode} {k : CharClass} {p : Place}
      (outside : ∀ c ∈ p.rest.head?, k.contains c = false) :
      Evaluates g (.pattern mode (.char k)) p .failed
  | atStart {mode : Mode} {p : Place} (starts : p.offset = 0) :
      Evaluates g (.pattern mode .atStart) p (.matched [] p)
  | atStartFailed {mode : Mode} {p : Place} (further : p.offset ≠ 0) :
      Evaluates g (.pattern mode .atStart) p .failed
  | atEnd {mode : Mode} {p : Place} (ends : p.rest = []) :
      Evaluates g (.pattern mode .atEnd) p (.matched [] p)
  | atEndFailed {mode : Mode} {p : Place} (earlier : p.rest ≠ []) :
      Evaluates g (.pattern mode .atEnd) p .failed
  /-- The pattern of a rule matches. -/
  | rule {mode : Mode} {name : ρ} {p q : Place} {nodes : List (Node ρ)}
      (body : Evaluates g (.pattern ((g.kind name).inner mode) (g.body name)) p
        (.matched nodes q)) :
      Evaluates g (.pattern mode (.rule name)) p
        (.matched (g.nodesOf mode name p.offset q.offset (p.upTo q.offset) nodes) q)
  | ruleFailed {mode : Mode} {name : ρ} {p : Place}
      (body : Evaluates g (.pattern ((g.kind name).inner mode) (g.body name)) p .failed) :
      Evaluates g (.pattern mode (.rule name)) p .failed
  | seq {mode : Mode} {a b : Pattern ρ} {p q : Place} {nodes : List (Node ρ)} {outcome : Outcome ρ}
      (first : Evaluates g (.pattern mode a) p (.matched nodes q))
      (second : Evaluates g (.next mode b) q outcome) :
      Evaluates g (.pattern mode (.seq a b)) p (outcome.prepend nodes)
  | seqFailed {mode : Mode} {a b : Pattern ρ} {p : Place}
      (first : Evaluates g (.pattern mode a) p .failed) :
      Evaluates g (.pattern mode (.seq a b)) p .failed
  | choice {mode : Mode} {a b : Pattern ρ} {p q : Place} {nodes : List (Node ρ)}
      (first : Evaluates g (.pattern mode a) p (.matched nodes q)) :
      Evaluates g (.pattern mode (.choice a b)) p (.matched nodes q)
  | choiceFailed {mode : Mode} {a b : Pattern ρ} {p : Place} {outcome : Outcome ρ}
      (first : Evaluates g (.pattern mode a) p .failed)
      (second : Evaluates g (.pattern mode b) p outcome) :
      Evaluates g (.pattern mode (.choice a b)) p outcome
  | many {mode : Mode} {a : Pattern ρ} {p q r : Place} {nodes others : List (Node ρ)}
      (first : Evaluates g (.pattern mode a) p (.matched nodes q))
      (further : Evaluates g (.more mode a) q (.matched others r)) :
      Evaluates g (.pattern mode (.many a)) p (.matched (nodes ++ others) r)
  | manyNone {mode : Mode} {a : Pattern ρ} {p : Place}
      (first : Evaluates g (.pattern mode a) p .failed) :
      Evaluates g (.pattern mode (.many a)) p (.matched [] p)
  | optional {mode : Mode} {a : Pattern ρ} {p q : Place} {nodes : List (Node ρ)}
      (item : Evaluates g (.pattern mode a) p (.matched nodes q)) :
      Evaluates g (.pattern mode (.optional a)) p (.matched nodes q)
  | optionalNone {mode : Mode} {a : Pattern ρ} {p : Place}
      (item : Evaluates g (.pattern mode a) p .failed) :
      Evaluates g (.pattern mode (.optional a)) p (.matched [] p)
  | absent {mode : Mode} {a : Pattern ρ} {p : Place}
      (item : Evaluates g (.pattern mode a) p .failed) :
      Evaluates g (.pattern mode (.absent a)) p (.matched [] p)
  | absentFailed {mode : Mode} {a : Pattern ρ} {p q : Place} {nodes : List (Node ρ)}
      (item : Evaluates g (.pattern mode a) p (.matched nodes q)) :
      Evaluates g (.pattern mode (.absent a)) p .failed
  /-- Nothing is skipped in this mode. -/
  | nextTight {mode : Mode} {a : Pattern ρ} {p : Place} {outcome : Outcome ρ}
      (tight : mode ≠ .free) (item : Evaluates g (.pattern mode a) p outcome) :
      Evaluates g (.next mode a) p outcome
  | next {a : Pattern ρ} {p q : Place} {nodes : List (Node ρ)} {outcome : Outcome ρ}
      (skipped : Evaluates g (.pattern .atomic g.trivia) p (.matched nodes q))
      (item : Evaluates g (.pattern .free a) q outcome) :
      Evaluates g (.next .free a) p (outcome.prepend nodes)
  | nextFailed {a : Pattern ρ} {p : Place}
      (skipped : Evaluates g (.pattern .atomic g.trivia) p .failed) :
      Evaluates g (.next .free a) p .failed
  /-- There is one more item. -/
  | more {mode : Mode} {a : Pattern ρ} {p q r : Place} {nodes others : List (Node ρ)}
      (item : Evaluates g (.next mode a) p (.matched nodes q))
      (further : Evaluates g (.more mode a) q (.matched others r)) :
      Evaluates g (.more mode a) p (.matched (nodes ++ others) r)
  /-- There are no more items. -/
  | moreNone {mode : Mode} {a : Pattern ρ} {p : Place}
      (item : Evaluates g (.next mode a) p .failed) :
      Evaluates g (.more mode a) p (.matched [] p)

/-- What the matcher gives for a goal. -/
def GivesGoal (g : Grammar ρ) : Goal ρ → Place → Outcome ρ → Prop
  | .pattern mode a => g.Gives mode a
  | .next mode a => g.GivesNext mode a
  | .more mode a => g.GivesMore mode a

section

variable {g : Grammar ρ} {mode : Mode} {p q : Place}

theorem gives_char_failed {k : CharClass} (outside : ∀ c ∈ p.rest.head?, k.contains c = false) :
    g.Gives mode (.char k) p .failed := by
  refine .of_succ 0 fun depth _ negated log => ?_
  obtain ⟨offset, rest⟩ := p
  cases rest with
  | nil => rfl
  | cons c rest =>
    have foreign : k.contains c = false := outside c rfl
    simp [run, Matcher.char, foreign]

theorem givesNext_of_trivia {nodes : List (Node ρ)} {b : Pattern ρ} {outcome : Outcome ρ}
    (skipped : g.Gives .atomic g.trivia p (.matched nodes q)) (item : g.Gives .free b q outcome) :
    g.GivesNext .free b p (outcome.prepend nodes) := by
  obtain ⟨enough, skipped⟩ := skipped
  obtain ⟨enough', item⟩ := item
  refine ⟨max enough enough', fun depth le negated log => ?_⟩
  rw [Matcher.fst_andThen, skip, if_pos rfl, skipped depth (by omega) negated log]
  exact congrArg (Outcome.prepend nodes) (item depth (by omega) negated _)

theorem givesNext_failed {b : Pattern ρ} (skipped : g.Gives .atomic g.trivia p .failed) :
    g.GivesNext .free b p .failed := by
  obtain ⟨enough, skipped⟩ := skipped
  refine ⟨enough, fun depth le negated log => ?_⟩
  rw [Matcher.fst_andThen, skip, if_pos rfl, skipped depth le negated log]

end

namespace Evaluates

variable {g : Grammar ρ} {goal : Goal ρ} {p q : Place} {outcome : Outcome ρ}

/-- An outcome is a match or a failure. -/
theorem ne_exhausted (h : g.Evaluates goal p outcome) : outcome ≠ .exhausted := by
  induction h with
  | seq _ _ _ ih => exact Matcher.Outcome.prepend_ne_exhausted ih _
  | next _ _ _ ih => exact Matcher.Outcome.prepend_ne_exhausted ih _
  | choiceFailed _ _ _ ih => exact ih
  | nextTight _ _ ih => exact ih
  | _ => simp

theorem exists_matched_or_failed (h : ∃ outcome, g.Evaluates goal p outcome) :
    (∃ nodes q, g.Evaluates goal p (.matched nodes q)) ∨ g.Evaluates goal p .failed := by
  obtain ⟨outcome, h⟩ := h
  cases outcome with
  | matched nodes q => exact .inl ⟨nodes, q, h⟩
  | failed => exact .inr h
  | exhausted => exact absurd rfl h.ne_exhausted

theorem more_ne_failed {mode : Mode} {a : Pattern ρ} (h : g.Evaluates (.more mode a) p outcome) :
    outcome ≠ .failed := by
  cases h <;> simp

/-- **The matcher ends as the rules say**, under every bound that is large enough. -/
theorem gives (h : g.Evaluates goal p outcome) : g.GivesGoal goal p outcome := by
  induction h with
  | @text mode chars p q eaten =>
    have gives : g.Gives mode (.text chars) p _ := gives_text chars p
    rwa [eaten] at gives
  | @textFailed mode chars p refused =>
    have gives : g.Gives mode (.text chars) p _ := gives_text chars p
    rwa [refused] at gives
  | char inside => exact gives_char inside _ _
  | charFailed outside => exact gives_char_failed outside
  | atStart starts => exact .of_succ 0 fun _ _ _ _ => by simp [run, Matcher.when, starts]
  | atStartFailed further => exact .of_succ 0 fun _ _ _ _ => by simp [run, Matcher.when, further]
  | atEnd ends => exact .of_succ 0 fun _ _ _ _ => by simp [run, Matcher.when, ends]
  | atEndFailed earlier => exact .of_succ 0 fun _ _ _ _ => by simp [run, Matcher.when, earlier]
  | rule _ ih => exact Gives.rule ih
  | ruleFailed _ ih => exact Gives.rule_failed ih
  | seq _ _ ihFirst ihSecond => exact Gives.seq_next ihFirst ihSecond
  | seqFailed _ ih => exact Gives.seq_failed ih _
  | choice _ ih => exact Gives.choice ih _
  | choiceFailed _ _ ihFirst ihSecond => exact Gives.choice_of_failed ihFirst ihSecond
  | many _ _ ihFirst ihFurther => exact Gives.many ihFirst ihFurther
  | manyNone _ ih => exact Gives.many_of_failed ih
  | optional _ ih => exact Gives.optional ih
  | optionalNone _ ih => exact Gives.optional_of_failed ih
  | absent _ ih => exact Gives.absent ih
  | absentFailed _ ih => exact Gives.absent_failed ih
  | nextTight tight _ ih => exact (skips_of_ne_free tight _).givesNext ih
  | next _ _ ihSkipped ihItem => exact givesNext_of_trivia ihSkipped ihItem
  | nextFailed _ ih => exact givesNext_failed ih
  | more _ _ ihItem ihFurther => exact GivesNext.more ihItem ihFurther
  | moreNone _ ih => exact GivesNext.stop ih

/-- A match takes a stretch of the text. -/
theorem exists_reaches {nodes : List (Node ρ)} (h : g.Evaluates goal p (.matched nodes q)) :
    ∃ taken, p.Reaches taken q := by
  generalize outcome_eq : Outcome.matched nodes q = outcome at h
  induction h generalizing nodes q with
  | text eaten =>
    obtain ⟨-, rfl⟩ := Outcome.matched.inj outcome_eq
    obtain ⟨rest_eq, offset_eq⟩ := Place.eat?_eq_some_iff.mp eaten
    exact ⟨_, rest_eq, offset_eq⟩
  | @char _ _ _ c =>
    obtain ⟨-, rfl⟩ := Outcome.matched.inj outcome_eq
    exact ⟨[c], rfl, rfl⟩
  | atStart | atEnd | manyNone | optionalNone | absent | moreNone =>
    obtain ⟨-, rfl⟩ := Outcome.matched.inj outcome_eq
    exact ⟨[], .refl _⟩
  | rule _ ih =>
    obtain ⟨-, rfl⟩ := Outcome.matched.inj outcome_eq
    exact ih rfl
  | choice _ ih | optional _ ih | nextTight _ _ ih => exact ih outcome_eq
  | choiceFailed _ _ _ ih => exact ih outcome_eq
  | seq _ _ ihFirst ihSecond | next _ _ ihFirst ihSecond =>
    obtain ⟨others, rfl, -⟩ := Matcher.eq_matched_of_prepend outcome_eq.symm
    obtain ⟨taken, reaches⟩ := ihFirst rfl
    obtain ⟨further, reaches'⟩ := ihSecond rfl
    exact ⟨taken ++ further, reaches.trans reaches'⟩
  | many _ _ ihFirst ihFurther | more _ _ ihFirst ihFurther =>
    obtain ⟨-, rfl⟩ := Outcome.matched.inj outcome_eq
    obtain ⟨taken, reaches⟩ := ihFirst rfl
    obtain ⟨further, reaches'⟩ := ihFurther rfl
    exact ⟨taken ++ further, reaches.trans reaches'⟩
  | textFailed | charFailed | atStartFailed | atEndFailed | ruleFailed | seqFailed | absentFailed
  | nextFailed => exact nomatch outcome_eq

end Evaluates

end Grammar

end ScriptTrace.Peg
