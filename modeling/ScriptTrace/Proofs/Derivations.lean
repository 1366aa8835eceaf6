import ScriptTrace.Proofs.Outcomes

/-!
# Matches as derivations

A match takes a stretch of a text, and so do all the matches that it is made of.  `Grammar.Matches`
says how a match is put together, with the places between its parts: it is an inductive relation
with one rule for each way in which a pattern can match, and a derivation is a tree that follows the
grammar.  Every match of the matcher has a derivation (`Grammar.matches_of_run`).

What is skipped between the parts of a sequence is a part of the match like the others.  Where
blanks are not skipped, it is the match of no characters (`Grammar.gap`).  A repetition ends where
its item fails; that is said only where blanks are not skipped, since only there the item is tried
at the very place where the repetition ends.

## Nodes and stretches

From derivations it follows, for every grammar, that nodes lie in the order of the text, each
between the places of the match that left it (`Grammar.Matches.row`), and that this is so inside
every node too.  `Node.Grown` keeps the derivation of each node of a tree, so that a rule can still
be asked for what its pattern says when its node is met deep inside the tree.

* `Grammar.Matches`: the derivations.
* `Row`: nodes, or other things with two ends, in the order of the text.
* `Node.Grown`: trees with a derivation for each of their nodes.
-/

namespace ScriptTrace.Peg

variable {ρ : Type}

/-! ## Places of a text -/

/-- A place of a text. -/
def Place.Of (source : List Char) (p : Place) : Prop :=
  ∃ before, Place.Reaches ⟨0, source⟩ before p

namespace Place

variable {p q : Place} {taken source : List Char}

theorem Of.reaches (h : p.Of source) (further : p.Reaches taken q) : q.Of source := by
  obtain ⟨before, reached⟩ := h
  exact ⟨before ++ taken, reached.trans further⟩

theorem Reaches.offset_le (h : p.Reaches taken q) : p.offset ≤ q.offset := by
  rw [h.offset_eq]
  omega

/-- No characters lead nowhere else. -/
theorem Reaches.eq_of_nil (h : p.Reaches [] q) : q = p := by
  obtain ⟨offset, rest⟩ := p
  obtain ⟨offset', rest'⟩ := q
  have sameRest : rest = rest' := h.rest_eq
  have sameOffset : offset' = offset := h.offset_eq
  rw [sameRest, sameOffset]

end Place

/-! ## Derivations -/

namespace Grammar

/-- What is skipped between the parts of a sequence. -/
def gap (g : Grammar ρ) (mode : Mode) : Pattern ρ :=
  if mode = .free then g.trivia else .text []

/-- How a match of a pattern is put together, from one place to another. -/
inductive Matches (g : Grammar ρ) :
    Mode → Pattern ρ → Place → List (Node ρ) → Place → Prop
  | text {mode : Mode} {chars : List Char} {p q : Place} (eaten : p.Reaches chars q) :
      Matches g mode (.text chars) p [] q
  | char {mode : Mode} {k : CharClass} {c : Char} {p q : Place} (inside : k.contains c = true)
      (eaten : p.Reaches [c] q) : Matches g mode (.char k) p [] q
  | atStart {mode : Mode} {p : Place} (starts : p.offset = 0) : Matches g mode .atStart p [] p
  | atEnd {mode : Mode} {p : Place} (ends : p.rest = []) : Matches g mode .atEnd p [] p
  | rule {mode : Mode} {name : ρ} {p q : Place} {nodes : List (Node ρ)}
      (body : Matches g ((g.kind name).inner mode) (g.body name) p nodes q) :
      Matches g mode (.rule name) p
        (g.nodesOf mode name p.offset q.offset (p.upTo q.offset) nodes) q
  | seq {mode : Mode} {a b : Pattern ρ} {p p₁ p₂ q : Place} {xs zs ys : List (Node ρ)}
      (first : Matches g mode a p xs p₁) (skipped : Matches g .atomic (g.gap mode) p₁ zs p₂)
      (second : Matches g mode b p₂ ys q) : Matches g mode (.seq a b) p (xs ++ (zs ++ ys)) q
  | choiceFirst {mode : Mode} {a b : Pattern ρ} {p q : Place} {nodes : List (Node ρ)}
      (first : Matches g mode a p nodes q) : Matches g mode (.choice a b) p nodes q
  | choiceSecond {mode : Mode} {a b : Pattern ρ} {p q : Place} {nodes : List (Node ρ)}
      (second : Matches g mode b p nodes q) : Matches g mode (.choice a b) p nodes q
  | manyNil {mode : Mode} {a : Pattern ρ} {p : Place}
      (stops : mode ≠ .free → g.Gives mode a p .failed) : Matches g mode (.many a) p [] p
  | manyOne {mode : Mode} {a : Pattern ρ} {p q : Place} {nodes : List (Node ρ)}
      (item : Matches g mode a p nodes q) (stops : mode ≠ .free → g.Gives mode a q .failed) :
      Matches g mode (.many a) p nodes q
  | manyCons {mode : Mode} {a : Pattern ρ} {p p₁ p₂ q : Place} {xs zs ys : List (Node ρ)}
      (item : Matches g mode a p xs p₁) (skipped : Matches g .atomic (g.gap mode) p₁ zs p₂)
      (rest : Matches g mode (.many a) p₂ ys q) : Matches g mode (.many a) p (xs ++ (zs ++ ys)) q
  | optionalSome {mode : Mode} {a : Pattern ρ} {p q : Place} {nodes : List (Node ρ)}
      (item : Matches g mode a p nodes q) : Matches g mode (.optional a) p nodes q
  | optionalNone {mode : Mode} {a : Pattern ρ} {p : Place} : Matches g mode (.optional a) p [] p
  | absent {mode : Mode} {a : Pattern ρ} {p : Place} (fails : g.Gives mode a p .failed) :
      Matches g mode (.absent a) p [] p

/-! ## Every match has a derivation -/

section Sound

variable {g : Grammar ρ} {mode : Mode} {negated : Bool} {depth : Nat} {a : Pattern ρ}

theorem gives_failed_of_run {p : Place} {log : FailureLog ρ}
    (failed : (g.run depth ⟨mode, negated⟩ a p log).1 = .failed) : g.Gives mode a p .failed := by
  have gives : g.Gives mode a p (g.run depth ⟨mode, negated⟩ a p log).1 :=
    gives_of_run (by simp [failed])
  rwa [failed] at gives

/-- An item after what is skipped. -/
def Follows (g : Grammar ρ) (mode : Mode) (a : Pattern ρ) (p : Place) (nodes : List (Node ρ))
    (q : Place) : Prop :=
  ∃ zs p₁ xs, g.Matches .atomic (g.gap mode) p zs p₁ ∧ g.Matches mode a p₁ xs q ∧ nodes = zs ++ xs

theorem sound_follows
    (blanks : Matcher.Sound (g.run depth ⟨.atomic, negated⟩ g.trivia) (g.Matches .atomic g.trivia))
    (item : Matcher.Sound (g.run depth ⟨mode, negated⟩ a) (g.Matches mode a)) :
    Matcher.Sound ((g.skip depth ⟨mode, negated⟩).andThen (g.run depth ⟨mode, negated⟩ a))
      (g.Follows mode a) := by
  have skipped : Matcher.Sound (g.skip depth ⟨mode, negated⟩) (g.Matches .atomic (g.gap mode)) := by
    rw [skip, gap]
    by_cases free : mode = .free
    · rw [if_pos free, if_pos free]
      exact blanks
    · rw [if_neg free, if_neg free]
      exact Matcher.sound_nothing fun p => .text (.refl p)
  exact Matcher.sound_andThen skipped item fun p zs p₁ xs q gap here => ⟨zs, p₁, xs, gap, here, rfl⟩

/-- Where blanks are not skipped, an item that fails after what is skipped fails at the place
itself. -/
theorem gives_failed_of_follows (tight : mode ≠ .free) {p : Place} {log : FailureLog ρ}
    (failed : ((g.skip depth ⟨mode, negated⟩).andThen
      (g.run depth ⟨mode, negated⟩ a) p log).1 = .failed) : g.Gives mode a p .failed := by
  rw [skip, if_neg tight, Matcher.fst_andThen] at failed
  change ((g.run depth ⟨mode, negated⟩ a p log).1).prepend [] = .failed at failed
  cases outcome : (g.run depth ⟨mode, negated⟩ a p log).1 with
  | matched nodes q => simp [outcome, Outcome.prepend] at failed
  | failed => exact gives_failed_of_run outcome
  | exhausted => simp [outcome, Outcome.prepend] at failed

/-- A repetition never fails. -/
theorem iterate_ne_failed (item : Matcher ρ) (bound : Nat) (p : Place) (log : FailureLog ρ) :
    (Matcher.iterate item bound p log).1 ≠ .failed := by
  induction bound generalizing p log with
  | zero => simp [Matcher.iterate]
  | succ bound ih =>
    rw [Matcher.fst_iterate]
    cases (item p log).1 with
    | matched nodes q =>
      have further := ih q (item p log).2
      cases outcome : (Matcher.iterate item bound q (item p log).2).1 with
      | failed => exact absurd outcome further
      | matched _ _ => simp [Outcome.prepend, outcome]
      | exhausted => simp [Outcome.prepend, outcome]
    | failed => simp
    | exhausted => simp

/-- The further items of a repetition, after one item. -/
theorem matches_of_iterate
    (items : Matcher.Sound ((g.skip depth ⟨mode, negated⟩).andThen
      (g.run depth ⟨mode, negated⟩ a)) (g.Follows mode a))
    {bound : Nat} {p p₁ q : Place} {log : FailureLog ρ} {xs ys : List (Node ρ)}
    (item : g.Matches mode a p xs p₁)
    (more : (Matcher.iterate ((g.skip depth ⟨mode, negated⟩).andThen
      (g.run depth ⟨mode, negated⟩ a)) bound p₁ log).1 = .matched ys q) :
    g.Matches mode (.many a) p (xs ++ ys) q := by
  induction bound generalizing p p₁ log xs ys with
  | zero => simp [Matcher.iterate] at more
  | succ bound ih =>
    rw [Matcher.fst_iterate] at more
    cases outcome : ((g.skip depth ⟨mode, negated⟩).andThen
        (g.run depth ⟨mode, negated⟩ a) p₁ log).1 with
    | matched nodes p₃ =>
      rw [outcome] at more
      obtain ⟨rest, further, rfl⟩ := Matcher.eq_matched_of_prepend more
      obtain ⟨zs, p₂, xs', skipped, next, rfl⟩ := items p₁ log nodes p₃ outcome
      have tail := ih next further
      rw [List.append_assoc]
      exact .manyCons item skipped tail
    | failed =>
      rw [outcome] at more
      obtain ⟨rfl, rfl⟩ := Outcome.matched.inj more
      rw [List.append_nil]
      exact .manyOne item fun tight => gives_failed_of_follows tight outcome
    | exhausted =>
      rw [outcome] at more
      cases more

/-- **Every match has a derivation.**  The induction is on the depth, and the cases are those of the
pattern. -/
theorem matches_of_run (g : Grammar ρ) (depth : Nat) (mode : Mode) (negated : Bool)
    (pattern : Pattern ρ) :
    Matcher.Sound (g.run depth ⟨mode, negated⟩ pattern) (g.Matches mode pattern) := by
  induction depth generalizing mode negated pattern with
  | zero =>
    intro p log nodes q run
    cases run
  | succ depth ih =>
    have follows (b : Pattern ρ) := sound_follows (ih .atomic negated g.trivia) (ih mode negated b)
    cases pattern with
    | text chars => exact Matcher.sound_text fun p q eaten => .text eaten
    | char k => exact Matcher.sound_char fun p c q inside eaten => .char inside eaten
    | atStart =>
      intro p log nodes q run
      simp only [Grammar.run, Matcher.when] at run
      split at run
      · rename_i starts
        obtain ⟨rfl, rfl⟩ := Outcome.matched.inj run
        exact .atStart (by simpa using starts)
      · cases run
    | atEnd =>
      intro p log nodes q run
      simp only [Grammar.run, Matcher.when] at run
      split at run
      · rename_i ends
        obtain ⟨rfl, rfl⟩ := Outcome.matched.inj run
        exact .atEnd (by simpa using ends)
      · cases run
    | rule name =>
      intro p log nodes q run
      have body := ih ((g.kind name).inner mode) negated (g.body name)
      simp only [Grammar.run] at run
      by_cases visible : (g.kind name).isVisible = true
      · rw [if_pos visible, Matcher.fst_asRule] at run
        cases outcome : (g.run depth ⟨(g.kind name).inner mode, negated⟩ (g.body name) p log).1 with
        | matched children q' =>
          rw [outcome] at run
          have derived := Matches.rule (body p log children q' outcome)
          by_cases atomic : (g.kind name).outer mode = .atomic
          · simp only [atomic, if_true, Outcome.matched.injEq] at run
            obtain ⟨rfl, rfl⟩ := run
            rwa [nodesOf, if_neg fun kept => kept.2 atomic] at derived
          · simp only [atomic, if_false, Outcome.matched.injEq] at run
            obtain ⟨rfl, rfl⟩ := run
            rwa [nodesOf, if_pos ⟨visible, atomic⟩] at derived
        | failed =>
          rw [outcome] at run
          cases run
        | exhausted =>
          rw [outcome] at run
          cases run
      · rw [if_neg visible] at run
        have derived := Matches.rule (body p log nodes q run)
        rwa [nodesOf, if_neg fun kept => visible kept.1] at derived
    | seq a b =>
      refine Matcher.sound_andThen (ih mode negated a) (follows b) ?_
      rintro p xs p₁ _ q first ⟨zs, p₂, ys, skipped, second, rfl⟩
      exact .seq first skipped second
    | choice a b =>
      exact Matcher.sound_orElse ((ih mode negated a).mono fun _ _ _ => .choiceFirst)
        ((ih mode negated b).mono fun _ _ _ => .choiceSecond)
    | many a =>
      intro p log nodes q run
      change (Matcher.orElse (Matcher.andThen (g.run depth ⟨mode, negated⟩ a)
        (Matcher.iterate ((g.skip depth ⟨mode, negated⟩).andThen (g.run depth ⟨mode, negated⟩ a))
          depth)) Matcher.nothing p log).1 = _ at run
      rw [Matcher.fst_orElse, Matcher.fst_andThen] at run
      cases outcome : (g.run depth ⟨mode, negated⟩ a p log).1 with
      | matched xs p₁ =>
        simp only [outcome] at run
        generalize (g.run depth ⟨mode, negated⟩ a p log).2 = log₁ at run
        cases more : (Matcher.iterate ((g.skip depth ⟨mode, negated⟩).andThen
            (g.run depth ⟨mode, negated⟩ a)) depth p₁ log₁).1 with
        | matched ys q' =>
          simp only [more, Outcome.prepend, Outcome.matched.injEq] at run
          obtain ⟨rfl, rfl⟩ := run
          exact matches_of_iterate (follows a) (ih mode negated a p log xs p₁ outcome) more
        | failed => exact absurd more (iterate_ne_failed _ _ _ _)
        | exhausted =>
          simp only [more, Outcome.prepend] at run
          cases run
      | failed =>
        simp only [outcome, Matcher.nothing, Outcome.matched.injEq] at run
        obtain ⟨rfl, rfl⟩ := run
        exact .manyNil fun _ => gives_failed_of_run outcome
      | exhausted =>
        simp only [outcome] at run
        cases run
    | optional a =>
      exact Matcher.sound_orElse ((ih mode negated a).mono fun _ _ _ => .optionalSome)
        (Matcher.sound_nothing fun _ => .optionalNone)
    | absent a =>
      intro p log nodes q run
      change (Matcher.absent (g.run depth ⟨mode, !negated⟩ a) p log).1 = _ at run
      rw [Matcher.fst_absent] at run
      cases outcome : (g.run depth ⟨mode, !negated⟩ a p log).1 with
      | failed =>
        simp only [outcome, Outcome.matched.injEq] at run
        obtain ⟨rfl, rfl⟩ := run
        exact .absent (gives_failed_of_run outcome)
      | matched _ _ =>
        simp only [outcome] at run
        cases run
      | exhausted =>
        simp only [outcome] at run
        cases run

theorem Gives.matches {p q : Place} {nodes : List (Node ρ)}
    (h : g.Gives mode a p (.matched nodes q)) : g.Matches mode a p nodes q := by
  obtain ⟨enough, gives⟩ := h
  exact g.matches_of_run enough mode false a p {} nodes q (gives enough (Nat.le_refl _) false {})

/-- The match of a rule at the beginning of a text. -/
theorem matches_of_read {rule : ρ} {source : List Char} {nodes : List (Node ρ)} {q : Place}
    (h : (g.read rule source).1 = .matched nodes q) :
    g.Matches .free (.rule rule) ⟨0, source⟩ nodes q :=
  g.matches_of_run _ .free false (.rule rule) ⟨0, source⟩ {} nodes q h

end Sound

end Grammar

/-! ## Nodes in the order of the text -/

/-- Things with two ends that follow one another between two offsets. -/
def Row {α : Type} (start stop : α → Nat) : Nat → List α → Nat → Prop
  | a, [], b => a ≤ b
  | a, x :: rest, b => a ≤ start x ∧ start x ≤ stop x ∧ Row start stop (stop x) rest b

namespace Row

variable {α : Type} {start stop : α → Nat} {a b c d : Nat} {xs ys : List α}

theorem le (h : Row start stop a xs b) : a ≤ b := by
  induction xs generalizing a with
  | nil => exact h
  | cons x rest ih =>
    obtain ⟨before, ordered, further⟩ := h
    have after := ih further
    omega

theorem widen (h : Row start stop b xs c) (before : a ≤ b) (after : c ≤ d) :
    Row start stop a xs d := by
  induction xs generalizing a b with
  | nil =>
    have between := h.le
    show a ≤ d
    omega
  | cons x rest ih =>
    obtain ⟨first, ordered, further⟩ := h
    exact ⟨by omega, ordered, ih further (Nat.le_refl _)⟩

theorem append (first : Row start stop a xs b) (second : Row start stop b ys c) :
    Row start stop a (xs ++ ys) c := by
  induction xs generalizing a with
  | nil => exact second.widen first (Nat.le_refl _)
  | cons x rest ih =>
    obtain ⟨before, ordered, further⟩ := first
    exact ⟨before, ordered, ih further⟩

theorem split (h : Row start stop a (xs ++ ys) c) :
    ∃ b, Row start stop a xs b ∧ Row start stop b ys c := by
  induction xs generalizing a with
  | nil => exact ⟨a, Nat.le_refl _, h⟩
  | cons x rest ih =>
    obtain ⟨before, ordered, further⟩ := h
    obtain ⟨b, first, second⟩ := ih further
    exact ⟨b, ⟨before, ordered, first⟩, second⟩

/-- What stands in a row stands between its ends. -/
theorem between (h : Row start stop a xs b) : ∀ x ∈ xs, a ≤ start x ∧ stop x ≤ b := by
  induction xs generalizing a with
  | nil => exact List.forall_mem_nil _
  | cons x rest ih =>
    obtain ⟨before, ordered, further⟩ := h
    refine List.forall_mem_cons.mpr ⟨⟨before, further.le⟩, fun y mem => ?_⟩
    have inside := ih further y mem
    omega

/-- What stands in a row does not overlap. -/
theorem pairwise (h : Row start stop a xs b) : xs.Pairwise fun x y => stop x ≤ start y := by
  induction xs generalizing a with
  | nil => exact .nil
  | cons x rest ih =>
    obtain ⟨before, ordered, further⟩ := h
    exact .cons (fun y mem => (further.between y mem).1) (ih further)

end Row

namespace Node

/-- A tree in which every node has a derivation, at a place of the text. -/
inductive Grown (g : Grammar ρ) (source : List Char) : Node ρ → Prop
  | mk {mode : Mode} {rule : ρ} {p q : Place} {children : List (Node ρ)} (start : p.Of source)
      (kept : (g.kind rule).isVisible = true ∧ (g.kind rule).outer mode ≠ .atomic)
      (body : g.Matches ((g.kind rule).inner mode) (g.body rule) p children q)
      (each : ∀ child ∈ children, child.Grown g source) :
      Grown g source (.mk rule p.offset q.offset (p.upTo q.offset) children)

end Node

namespace Grammar.Matches

variable {g : Grammar ρ} {mode : Mode} {pattern : Pattern ρ} {p q : Place} {nodes : List (Node ρ)}

/-- A match takes a stretch of the text. -/
theorem reaches (h : g.Matches mode pattern p nodes q) : ∃ taken, p.Reaches taken q := by
  induction h with
  | text eaten => exact ⟨_, eaten⟩
  | char _ eaten => exact ⟨_, eaten⟩
  | atStart _ => exact ⟨[], .refl _⟩
  | atEnd _ => exact ⟨[], .refl _⟩
  | rule _ ih => exact ih
  | seq _ _ _ ihFirst ihSkipped ihSecond =>
    obtain ⟨t, first⟩ := ihFirst
    obtain ⟨u, skipped⟩ := ihSkipped
    obtain ⟨v, second⟩ := ihSecond
    exact ⟨_, (first.trans skipped).trans second⟩
  | choiceFirst _ ih => exact ih
  | choiceSecond _ ih => exact ih
  | manyNil _ => exact ⟨[], .refl _⟩
  | manyOne _ _ ih => exact ih
  | manyCons _ _ _ ihItem ihSkipped ihRest =>
    obtain ⟨t, item⟩ := ihItem
    obtain ⟨u, skipped⟩ := ihSkipped
    obtain ⟨v, rest⟩ := ihRest
    exact ⟨_, (item.trans skipped).trans rest⟩
  | optionalSome _ ih => exact ih
  | optionalNone => exact ⟨[], .refl _⟩
  | absent _ => exact ⟨[], .refl _⟩

theorem offset_le (h : g.Matches mode pattern p nodes q) : p.offset ≤ q.offset := by
  obtain ⟨taken, reaches⟩ := h.reaches
  exact reaches.offset_le

/-- Where blanks are not skipped, the parts of a sequence follow each other at once. -/
theorem seq_tight {a b : Pattern ρ} (tight : mode ≠ .free)
    (h : g.Matches mode (.seq a b) p nodes q) :
    ∃ xs p₁ ys, g.Matches mode a p xs p₁ ∧ g.Matches mode b p₁ ys q ∧ nodes = xs ++ ys := by
  cases h with
  | @seq _ _ _ _ p₁ _ _ xs zs ys first skipped second =>
    rw [gap, if_neg tight] at skipped
    cases skipped with
    | text eaten =>
      rw [eaten.eq_of_nil] at second
      exact ⟨xs, p₁, ys, first, second, rfl⟩

/-- Where blanks are not skipped, a repetition is its items one after the other, up to a place where
the item fails. -/
theorem many_induction {a : Pattern ρ} (tight : mode ≠ .free)
    {P : Place → List (Node ρ) → Place → Prop} (nil : ∀ p, g.Gives mode a p .failed → P p [] p)
    (cons : ∀ p xs p₁ ys q, g.Matches mode a p xs p₁ → P p₁ ys q → P p (xs ++ ys) q)
    (h : g.Matches mode (.many a) p nodes q) : P p nodes q := by
  generalize repetition : Pattern.many a = pattern at h
  induction h with
  | manyNil stops =>
    cases repetition
    exact nil _ (stops tight)
  | manyOne item stops =>
    cases repetition
    have whole := cons _ _ _ [] _ item (nil _ (stops tight))
    rwa [List.append_nil] at whole
  | manyCons item skipped rest _ _ ih =>
    cases repetition
    rw [gap, if_neg tight] at skipped
    cases skipped with
    | text eaten =>
      have further := ih tight nil cons rfl
      rw [eaten.eq_of_nil] at further
      exact cons _ _ _ _ _ item further
  | _ => exact nomatch repetition

/-- **The nodes of a match lie in the order of the text**, between its two places. -/
theorem row (h : g.Matches mode pattern p nodes q) :
    Row Node.start Node.stop p.offset nodes q.offset := by
  induction h with
  | text eaten => exact eaten.offset_le
  | char _ eaten => exact eaten.offset_le
  | atStart _ => exact Nat.le_refl _
  | atEnd _ => exact Nat.le_refl _
  | @rule mode name p q children body ih =>
    rw [nodesOf]
    split
    · exact ⟨Nat.le_refl _, body.offset_le, Nat.le_refl _⟩
    · exact ih
  | seq _ _ _ ihFirst ihSkipped ihSecond => exact ihFirst.append (ihSkipped.append ihSecond)
  | choiceFirst _ ih => exact ih
  | choiceSecond _ ih => exact ih
  | manyNil _ => exact Nat.le_refl _
  | manyOne _ _ ih => exact ih
  | manyCons _ _ _ ihItem ihSkipped ihRest => exact ihItem.append (ihSkipped.append ihRest)
  | optionalSome _ ih => exact ih
  | optionalNone => exact Nat.le_refl _
  | absent _ => exact Nat.le_refl _

/-- The nodes of a sequence end with those of its second part. -/
theorem seq_last {a b : Pattern ρ} (h : g.Matches mode (.seq a b) p nodes q) :
    ∃ front p₁ ys, g.Matches mode b p₁ ys q ∧ nodes = front ++ ys := by
  cases h with
  | @seq _ _ _ _ _ p₂ _ xs zs ys _ _ second =>
    exact ⟨xs ++ zs, p₂, ys, second, by rw [List.append_assoc]⟩

theorem inOrder_last {first last : Pattern ρ} (others : List (Pattern ρ))
    (h : g.Matches mode (.inOrder first (others ++ [last])) p nodes q) :
    ∃ front p₁ ys, g.Matches mode last p₁ ys q ∧ nodes = front ++ ys := by
  induction others generalizing first p nodes with
  | nil => exact h.seq_last
  | cons next others ih =>
    obtain ⟨before, p₁, ys, rest, rfl⟩ := h.seq_last
    obtain ⟨front, p₂, zs, ends, rfl⟩ := ih rest
    exact ⟨before ++ front, p₂, zs, ends, by rw [List.append_assoc]⟩

/-- The nodes of a sequence end before the sequence does, if those of its second part do. -/
theorem seq_row_lt {a b : Pattern ρ} (h : g.Matches mode (.seq a b) p nodes q)
    (second : ∀ p₁ ys, g.Matches mode b p₁ ys q →
      ∃ stop < q.offset, Row Node.start Node.stop p₁.offset ys stop) :
    ∃ stop < q.offset, Row Node.start Node.stop p.offset nodes stop := by
  cases h with
  | seq first skipped last =>
    obtain ⟨stop, lt, row⟩ := second _ _ last
    exact ⟨stop, lt, first.row.append (skipped.row.append row)⟩

/-- **Every node below a match has a derivation.** -/
theorem grown (h : g.Matches mode pattern p nodes q) {source : List Char} (start : p.Of source) :
    ∀ node ∈ nodes, node.Grown g source := by
  induction h with
  | @rule mode name p q children body ih =>
    rw [nodesOf]
    split
    · rename_i kept
      exact List.forall_mem_singleton.mpr (.mk start kept body (ih start))
    · exact ih start
  | seq first skipped _ ihFirst ihSkipped ihSecond =>
    obtain ⟨_, reaches⟩ := first.reaches
    obtain ⟨_, reaches'⟩ := skipped.reaches
    have middle := start.reaches reaches
    simp only [List.forall_mem_append]
    exact ⟨ihFirst start, ihSkipped middle, ihSecond (middle.reaches reaches')⟩
  | manyCons item skipped _ ihItem ihSkipped ihRest =>
    obtain ⟨_, reaches⟩ := item.reaches
    obtain ⟨_, reaches'⟩ := skipped.reaches
    have middle := start.reaches reaches
    simp only [List.forall_mem_append]
    exact ⟨ihItem start, ihSkipped middle, ihRest (middle.reaches reaches')⟩
  | choiceFirst _ ih => exact ih start
  | choiceSecond _ ih => exact ih start
  | manyOne _ _ ih => exact ih start
  | optionalSome _ ih => exact ih start
  | text _ | char _ _ | atStart _ | atEnd _ | manyNil _ | optionalNone | absent _ =>
    exact List.forall_mem_nil _

end Grammar.Matches

end ScriptTrace.Peg
