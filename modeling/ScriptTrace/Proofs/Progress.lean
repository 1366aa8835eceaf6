import ScriptTrace.Proofs.Outcomes

/-!
# Matching makes progress

A grammar could call a rule again at the place where the rule began, or repeat an item that takes
nothing; then matching would never end, and every bound would be too small.  This file says what
excludes it, and that `Grammar.read` then always has an answer.

## What is known of the rules

A `Profile` says of every rule whether it may match without taking a character, and gives it a rank.
Rules that a rule calls before a character has been taken must have a smaller rank
(`Pattern.descends`), and items of repetitions must take a character.  Such a grammar is *ranked*
(`Grammar.Ranked`), which for a given grammar is a finite check.

## The bound

Between two characters that are taken, ranks go down, and inside one rule patterns get smaller.  So
the depth is bounded by a number with three digits: the characters left, the rank, the size of the
pattern (`Grammar.need`).  A run with that much depth has an answer (`Grammar.Ranked.settles`).

## First characters

The same profile gives the characters that a match may begin with (`Grammar.heads`).  A pattern that
takes a character, and has none of its first characters where the text begins, refuses the text
(`Grammar.Ranked.refuses`).

* `Grammar.sound_begins`: what a match begins with.
* `Grammar.Ranked.settles`, `Grammar.Ranked.gives_read`: every match has an answer.
* `Grammar.Ranked.refuses`: refusal by the first character.
-/

namespace ScriptTrace.Peg

variable {ρ : Type}

/-! ## What is known of the rules -/

/-- What is known of the rules of a grammar. -/
structure Profile (ρ : Type) where
  /-- Whether a rule may match without taking a character. -/
  mayBeEmpty : ρ → Bool
  /-- How deeply rules call one another before a character is taken. -/
  rank : ρ → Nat

/-- A set of characters that a match may begin with. -/
inductive Head where
  | only (c : Char)
  | anyOf (k : CharClass)
  deriving DecidableEq

namespace CharClass

/-- Whether two sets are known to have no character in common. -/
def isApart : CharClass → CharClass → Bool
  | .letter, .digit | .digit, .letter => true
  | _, _ => false

theorem isDigit_eq_false_of_isAlpha {c : Char} (h : c.isAlpha = true) : c.isDigit = false := by
  delta Char.isAlpha Char.isUpper Char.isLower at h
  delta Char.isDigit
  simp only [Bool.or_eq_true, Bool.and_eq_true, decide_eq_true_eq, Bool.and_eq_false_iff,
    decide_eq_false_iff_not] at h ⊢
  grind

theorem contains_eq_false_of_isApart {c : Char} : ∀ {k k' : CharClass}, k.isApart k' = true →
    k.contains c = true → k'.contains c = false
  | .letter, .digit, _, inside => isDigit_eq_false_of_isAlpha inside
  | .digit, .letter, _, inside => by
    refine Bool.eq_false_iff.mpr fun letter => ?_
    have digit : c.isDigit = true := inside
    rw [isDigit_eq_false_of_isAlpha letter] at digit
    exact nomatch digit

end CharClass

namespace Head

def contains : Head → Char → Bool
  | .only d, c => d == c
  | .anyOf k, c => k.contains c

/-- Whether two sets are known to have no character in common. -/
def isApart : Head → Head → Bool
  | .only c, h => !h.contains c
  | .anyOf k, .only c => !k.contains c
  | .anyOf k, .anyOf k' => k.isApart k'

theorem contains_eq_false_of_isApart {h h' : Head} (apart : h.isApart h' = true) {c : Char}
    (inside : h.contains c = true) : h'.contains c = false := by
  cases h with
  | only d =>
    rw [← beq_iff_eq.mp inside]
    exact (Bool.not_eq_true' _).mp apart
  | anyOf k =>
    cases h' with
    | only d =>
      refine Bool.eq_false_iff.mpr fun same => ?_
      have outside : k.contains d = false := (Bool.not_eq_true' _).mp apart
      rw [beq_iff_eq.mp same] at outside
      exact nomatch outside.symm.trans inside
    | anyOf k' => exact CharClass.contains_eq_false_of_isApart apart inside

end Head

namespace Pattern

variable (known : Profile ρ)

/-- Whether a pattern may match without taking a character. -/
def mayBeEmpty : Pattern ρ → Bool
  | .text chars => chars.isEmpty
  | .char _ => false
  | .atStart | .atEnd | .many _ | .optional _ | .absent _ => true
  | .rule name => known.mayBeEmpty name
  | .seq a b => a.mayBeEmpty && b.mayBeEmpty
  | .choice a b => a.mayBeEmpty || b.mayBeEmpty

/-- Whether the rules that a pattern calls before a character has been taken have a rank below a
bound, those after it a rank below `top`, and the items of repetitions take a character. -/
def descends (top : Nat) : Nat → Pattern ρ → Bool
  | _, .text _ | _, .char _ | _, .atStart | _, .atEnd => true
  | bound, .rule name => known.rank name < bound
  | bound, .seq a b =>
    a.descends top bound && b.descends top (if a.mayBeEmpty known then bound else top)
  | bound, .choice a b => a.descends top bound && b.descends top bound
  | bound, .many a => a.descends top bound && !a.mayBeEmpty known
  | bound, .optional a | bound, .absent a => a.descends top bound

/-- The characters that a match may begin with, where `blanks` are those that are skipped and
`ofRule` those of the rules. -/
def heads (blanks : List Head) (ofRule : ρ → List Head) : Pattern ρ → List Head
  | .text [] | .atStart | .atEnd | .absent _ => []
  | .text (c :: _) => [.only c]
  | .char k => [.anyOf k]
  | .rule name => ofRule name
  | .seq a b =>
    a.heads blanks ofRule ++
      if a.mayBeEmpty known then blanks ++ b.heads blanks ofRule else []
  | .choice a b => a.heads blanks ofRule ++ b.heads blanks ofRule
  | .many a => a.heads blanks ofRule ++ if a.mayBeEmpty known then blanks else []
  | .optional a => a.heads blanks ofRule

theorem one_le_size (pattern : Pattern ρ) : 1 ≤ pattern.size := by
  cases pattern <;> simp [size]

variable {known}

theorem descends_mono {top bound bound' : Nat} (le : bound ≤ bound') (le' : bound' ≤ top)
    {pattern : Pattern ρ} (h : pattern.descends known top bound = true) :
    pattern.descends known top bound' = true := by
  induction pattern generalizing bound bound' with
  | text _ | char _ | atStart | atEnd => rfl
  | rule name =>
    have lower : known.rank name < bound := of_decide_eq_true h
    exact decide_eq_true (Nat.lt_of_lt_of_le lower le)
  | seq a b iha ihb =>
    simp only [descends, Bool.and_eq_true] at h ⊢
    refine ⟨iha le le' h.1, ?_⟩
    cases empty : a.mayBeEmpty known with
    | true => exact ihb le le' (by simpa [empty] using h.2)
    | false => simpa [empty] using h.2
  | choice a b iha ihb =>
    simp only [descends, Bool.and_eq_true] at h ⊢
    exact ⟨iha le le' h.1, ihb le le' h.2⟩
  | many a ih =>
    simp only [descends, Bool.and_eq_true] at h ⊢
    exact ⟨ih le le' h.1, h.2⟩
  | optional a ih => exact ih le le' h
  | absent a ih => exact ih le le' h

end Pattern

namespace Grammar

variable (g : Grammar ρ) (known : Profile ρ)

/-- The characters that a match of a rule may begin with.  The search goes down to a given number of
calls and takes any character to be possible below. -/
def ruleHeads : Nat → Mode → ρ → List Head
  | 0, _, _ => [.anyOf .any]
  | calls + 1, mode, name =>
    let inner := (g.kind name).inner mode
    let blanks :=
      if inner = .free then g.trivia.heads known [] (ruleHeads calls .atomic) else []
    (g.body name).heads known blanks (ruleHeads calls inner)

/-- The characters that blanks may begin with, where blanks are skipped. -/
def blankHeads (calls : Nat) (mode : Mode) : List Head :=
  if mode = .free then g.trivia.heads known [] (g.ruleHeads known calls .atomic) else []

/-- The characters that a match of a pattern may begin with. -/
def heads (calls : Nat) (mode : Mode) (pattern : Pattern ρ) : List Head :=
  pattern.heads known (g.blankHeads known calls mode) (g.ruleHeads known calls mode)

/-- A grammar in which matching makes progress. -/
structure Ranked : Prop where
  two_le_length : 2 ≤ g.rules.length
  mayBeEmpty : ∀ name, (g.body name).mayBeEmpty known = true → known.mayBeEmpty name = true
  mem_rules : ∀ name, name ∈ g.rules
  rank_lt : ∀ name, known.rank name < g.rules.length
  descends : ∀ name, (g.body name).descends known g.rules.length (known.rank name) = true
  trivia : g.trivia.descends known g.rules.length 1 = true
  /-- Blanks are skipped only in rules of a higher rank than blanks themselves. -/
  two_le_rank : ∀ name, (g.kind name).inner .free = .free → 2 ≤ known.rank name

end Grammar

/-! ## What a match begins with -/

/-- The text between two places begins with a character of a set, if there is text between them, and
there is unless the match may be empty. -/
def Begins (heads : List Head) (mayBeEmpty : Bool) (p q : Place) : Prop :=
  ∃ taken, p.Reaches taken q ∧ (taken = [] → mayBeEmpty = true) ∧
    ∀ c ∈ taken.head?, ∃ h ∈ heads, h.contains c = true

namespace Begins

variable {heads heads' : List Head} {e e' : Bool} {p q r : Place}

theorem refl (heads : List Head) (p : Place) : Begins heads true p p :=
  ⟨[], .refl p, fun _ => rfl, fun _ none => nomatch none⟩

theorem mono (h : Begins heads e p q) (sub : heads ⊆ heads') (le : e = true → e' = true) :
    Begins heads' e' p q := by
  obtain ⟨taken, reaches, empty, first⟩ := h
  refine ⟨taken, reaches, fun none => le (empty none), fun c begins => ?_⟩
  obtain ⟨h, mem, inside⟩ := first c begins
  exact ⟨h, sub mem, inside⟩

/-- Nothing is said of the first character. -/
theorem any (h : Begins heads e p q) : Begins [.anyOf .any] e p q := by
  obtain ⟨taken, reaches, empty, -⟩ := h
  exact ⟨taken, reaches, empty, fun _ _ => ⟨_, List.mem_singleton_self _, rfl⟩⟩

theorem append (first : Begins heads e p q) (second : Begins heads' e' q r) :
    Begins (heads ++ if e then heads' else []) (e && e') p r := by
  obtain ⟨t, reaches, empty, begins⟩ := first
  obtain ⟨u, reaches', empty', begins'⟩ := second
  refine ⟨t ++ u, reaches.trans reaches', fun none => ?_, fun c here => ?_⟩
  · obtain ⟨none, none'⟩ := List.append_eq_nil_iff.mp none
    rw [empty none, empty' none']
    rfl
  · cases t with
    | nil =>
      obtain ⟨h, mem, inside⟩ := begins' c here
      rw [empty rfl]
      exact ⟨h, List.mem_append_right _ mem, inside⟩
    | cons d t =>
      obtain ⟨h, mem, inside⟩ := begins c here
      exact ⟨h, List.mem_append_left _ mem, inside⟩

theorem andThen {first second : Matcher ρ} (hf : first.Sound fun p _ q => Begins heads e p q)
    (hs : second.Sound fun p _ q => Begins heads' e' p q) :
    (first.andThen second).Sound fun p _ q =>
      Begins (heads ++ if e then heads' else []) (e && e') p q :=
  Matcher.sound_andThen hf hs fun _ _ _ _ _ => append

/-- The text gets no longer, and it gets shorter unless the match may be empty. -/
theorem length_le (h : Begins heads e p q) :
    q.rest.length + (if e then 0 else 1) ≤ p.rest.length := by
  obtain ⟨taken, reaches, empty, -⟩ := h
  have length : p.rest.length = taken.length + q.rest.length := by
    rw [reaches.rest_eq, List.length_append]
  cases taken with
  | nil => simp [empty rfl, length]
  | cons c taken =>
    rw [List.length_cons] at length
    split <;> omega

end Begins

namespace Grammar

variable {g : Grammar ρ} {known : Profile ρ}

/-- **A match begins with one of the first characters of its pattern**, and takes a character unless
the pattern may be empty. -/
theorem Ranked.sound_begins (ranked : g.Ranked known) (depth calls : Nat) (around : Surroundings)
    (pattern : Pattern ρ) :
    (g.run depth around pattern).Sound fun p _ q =>
      Begins (g.heads known calls around.mode pattern) (pattern.mayBeEmpty known) p q := by
  induction depth generalizing calls around pattern with
  | zero => exact fun p log nodes q run => nomatch run
  | succ depth ih =>
    have skip : (g.skip depth around).Sound fun p _ q =>
        Begins (g.blankHeads known calls around.mode) true p q := by
      rw [Grammar.skip]
      split
      · rename_i free
        rw [blankHeads, if_pos free]
        refine (ih calls { around with mode := .atomic } g.trivia).mono fun p _ q h => ?_
        exact h.mono (List.Subset.refl _) fun _ => rfl
      · exact Matcher.sound_nothing fun p => .refl _ p
    cases pattern with
    | text chars =>
      refine Matcher.sound_text fun p q eaten => ⟨chars, eaten, ?_, ?_⟩
      · rintro rfl
        rfl
      · cases chars with
        | nil => rintro _ ⟨⟩
        | cons d chars =>
          rintro _ ⟨⟩
          exact ⟨.only d, List.mem_singleton_self _, beq_self_eq_true d⟩
    | char k =>
      refine Matcher.sound_char fun p c q inside eaten => ⟨[c], eaten, ?_, ?_⟩
      · intro none
        exact absurd none (List.cons_ne_nil _ _)
      · rintro _ ⟨⟩
        exact ⟨.anyOf k, List.mem_singleton_self _, inside⟩
    | atStart => exact Matcher.sound_when fun p => .refl _ p
    | atEnd => exact Matcher.sound_when fun p => .refl _ p
    | absent a => exact Matcher.sound_absent fun p => .refl _ p
    | rule name =>
      have body : (g.run depth { around with mode := (g.kind name).inner around.mode }
          (g.body name)).Sound fun p _ q =>
            Begins (g.heads known calls around.mode (.rule name)) (known.mayBeEmpty name) p q := by
        cases calls with
        | zero =>
          refine (ih 0 _ (g.body name)).mono fun p _ q h => ?_
          exact h.any.mono (List.Subset.refl _) (ranked.mayBeEmpty name)
        | succ calls =>
          refine (ih calls _ (g.body name)).mono fun p _ q h => ?_
          exact h.mono (List.Subset.refl _) (ranked.mayBeEmpty name)
      have node : (Matcher.asRule name ((g.kind name).outer around.mode) around.negated
          (g.run depth { around with mode := (g.kind name).inner around.mode }
            (g.body name))).Sound fun p _ q =>
              Begins (g.heads known calls around.mode (.rule name)) (known.mayBeEmpty name) p q :=
        Matcher.sound_asRule body fun _ _ _ h => h
      intro p log nodes q run
      simp only [Grammar.run] at run
      split at run
      · exact node p log nodes q run
      · exact body p log nodes q run
    | seq a b =>
      have both := Begins.andThen (ih calls around a) (Begins.andThen skip (ih calls around b))
      refine both.mono fun p _ q h => h.mono ?_ ?_
      · simp [heads, Pattern.heads]
      · simp [Pattern.mayBeEmpty]
    | choice a b =>
      refine Matcher.sound_orElse ((ih calls around a).mono fun p _ q h => ?_)
        ((ih calls around b).mono fun p _ q h => ?_)
      · refine h.mono (List.subset_append_left _ _) fun empty => ?_
        simp [Pattern.mayBeEmpty, empty]
      · refine h.mono (List.subset_append_right _ _) fun empty => ?_
        simp [Pattern.mayBeEmpty, empty]
    | many a =>
      have item := ih calls around a
      -- a further item begins with a blank or as an item does
      have more : (Matcher.iterate ((g.skip depth around).andThen (g.run depth around a))
          depth).Sound fun p _ q => Begins (g.blankHeads known calls around.mode ++
            g.heads known calls around.mode a) true p q := by
        refine Matcher.sound_iterate (fun p => .refl _ p) (Begins.andThen skip item) ?_ depth
        intro p xs q ys r first second
        refine (first.append second).mono ?_ fun _ => rfl
        cases a.mayBeEmpty known <;> simp
      refine Matcher.sound_orElse ?_ (Matcher.sound_nothing fun p => .refl _ p)
      refine (Begins.andThen item more).mono fun p _ q h => h.mono ?_ fun _ => rfl
      cases empty : a.mayBeEmpty known <;> simp [heads, Pattern.heads, empty]
    | optional a =>
      refine Matcher.sound_orElse ((ih calls around a).mono fun p _ q h => ?_) ?_
      · exact h.mono (List.Subset.refl _) fun _ => rfl
      · exact Matcher.sound_nothing fun p => .refl _ p

end Grammar

/-! ## Every match has an answer -/

namespace Matcher

variable {first second item : Matcher ρ} {p : Place}

/-- The matcher has an answer at a place. -/
def Settles (m : Matcher ρ) (p : Place) : Prop :=
  ∀ log, (m p log).1 ≠ .exhausted

theorem Outcome.prepend_ne_exhausted {outcome : Outcome ρ} (h : outcome ≠ .exhausted)
    (nodes : List (Node ρ)) : outcome.prepend nodes ≠ .exhausted := by
  cases outcome with
  | matched more q => exact fun same => nomatch same
  | failed => exact fun same => nomatch same
  | exhausted => exact absurd rfl h

theorem settles_nothing (p : Place) : (nothing : Matcher ρ).Settles p :=
  fun _ same => nomatch same

theorem settles_text (chars : List Char) (p : Place) : (text chars : Matcher ρ).Settles p := by
  intro log
  rw [text]
  split <;> intro same <;> cases same

theorem settles_char (k : CharClass) (p : Place) : (char k : Matcher ρ).Settles p := by
  intro log
  rw [char]
  split
  · intro same
    cases same
  · split <;> intro same <;> cases same

theorem settles_when (condition : Place → Bool) (p : Place) :
    (when condition : Matcher ρ).Settles p := by
  intro log
  rw [when]
  split <;> intro same <;> cases same

theorem Settles.andThen (hf : first.Settles p)
    (hs : ∀ log nodes q, (first p log).1 = .matched nodes q → second.Settles q) :
    (first.andThen second).Settles p := by
  intro log
  rw [fst_andThen]
  cases answer : (first p log).1 with
  | matched nodes q => exact Outcome.prepend_ne_exhausted (hs log nodes q answer _) nodes
  | failed => exact fun same => nomatch same
  | exhausted => exact absurd answer (hf log)

theorem Settles.orElse (hf : first.Settles p) (hs : second.Settles p) :
    (first.orElse second).Settles p := by
  intro log
  rw [fst_orElse]
  cases answer : (first p log).1 with
  | matched nodes q => exact fun same => nomatch same
  | failed => exact hs _
  | exhausted => exact absurd answer (hf log)

theorem Settles.absent (hi : item.Settles p) : (absent item).Settles p := by
  intro log
  rw [fst_absent]
  cases answer : (item p log).1 with
  | matched nodes q => exact fun same => nomatch same
  | failed => exact fun same => nomatch same
  | exhausted => exact absurd answer (hi log)

theorem Settles.asRule (hi : item.Settles p) (rule : ρ) (mode : Mode) (negated : Bool) :
    (asRule rule mode negated item).Settles p := by
  intro log
  rw [fst_asRule]
  cases answer : (item p log).1 with
  | matched nodes q => by_cases atomic : mode = .atomic <;> simp [atomic]
  | failed => exact fun same => nomatch same
  | exhausted => exact absurd answer (hi log)

/-- A repetition ends, if every item takes a character: the bound is on the characters left. -/
theorem settles_iterate {bound : Nat} (fits : p.rest.length < bound)
    (hi : ∀ q : Place, q.rest.length ≤ p.rest.length → item.Settles q)
    (takes : item.Sound fun p _ q => q.rest.length < p.rest.length) :
    (iterate item bound).Settles p := by
  induction bound generalizing p with
  | zero => exact absurd fits (Nat.not_lt_zero _)
  | succ bound ih =>
    intro log
    rw [fst_iterate]
    cases answer : (item p log).1 with
    | matched nodes q =>
      have shorter := takes p log nodes q answer
      refine Outcome.prepend_ne_exhausted (ih (by omega) (fun r le => hi r (by omega)) _) nodes
    | failed => exact fun same => nomatch same
    | exhausted => exact absurd answer (hi p (Nat.le_refl _) log)

end Matcher

namespace Grammar

variable {g : Grammar ρ} {known : Profile ρ}

/-- A depth that is enough for a pattern of a given size, whose first calls have a rank below a
bound, with some characters left. -/
def need (g : Grammar ρ) (left bound size : Nat) : Nat :=
  left * ((g.rules.length + 2) * (g.largestPattern + 3)) + bound * (g.largestPattern + 3) + size

theorem need_eq (left bound size : Nat) : g.need left bound size = g.need left bound 0 + size :=
  rfl

theorem need_mono {left left' : Nat} (le : left' ≤ left) (bound size : Nat) :
    g.need left' bound size ≤ g.need left bound size := by
  have mul := Nat.mul_le_mul_right ((g.rules.length + 2) * (g.largestPattern + 3)) le
  simp only [need]
  omega

/-- After a character, any rule may be called again. -/
theorem need_of_lt {left left' : Nat} (lt : left' < left) (bound size : Nat) :
    g.need left' g.rules.length size ≤ g.need left bound size := by
  have mul := Nat.mul_le_mul_right ((g.rules.length + 2) * (g.largestPattern + 3))
    (Nat.succ_le_of_lt lt)
  rw [Nat.succ_mul] at mul
  have room := Nat.mul_le_mul_right (g.largestPattern + 3) (Nat.le_add_right g.rules.length 2)
  simp only [need]
  omega

theorem need_of_rank_lt {rank bound : Nat} (lt : rank < bound) (left : Nat) {size : Nat}
    (small : size ≤ g.largestPattern) : g.need left rank size ≤ g.need left bound 0 := by
  have mul := Nat.mul_le_mul_right (g.largestPattern + 3) (Nat.succ_le_of_lt lt)
  rw [Nat.succ_mul] at mul
  simp only [need]
  omega

theorem lt_need (left bound size : Nat) : left + size ≤ g.need left bound size := by
  have pos : 0 < (g.rules.length + 2) * (g.largestPattern + 3) :=
    Nat.mul_pos (by omega) (by omega)
  have mul := Nat.le_mul_of_pos_right left pos
  simp only [need]
  omega

theorem le_foldl_max {f : ρ → Nat} (rules : List ρ) (start : Nat) :
    start ≤ rules.foldl (fun n r => max n (f r)) start ∧
      ∀ r ∈ rules, f r ≤ rules.foldl (fun n r => max n (f r)) start := by
  induction rules generalizing start with
  | nil => exact ⟨Nat.le_refl _, fun r mem => nomatch mem⟩
  | cons r rules ih =>
    obtain ⟨first, others⟩ := ih (max start (f r))
    refine ⟨Nat.le_trans (Nat.le_max_left _ _) first, ?_⟩
    intro r' mem
    rcases List.mem_cons.mp mem with rfl | mem
    · exact Nat.le_trans (Nat.le_max_right _ _) first
    · exact others r' mem

theorem size_trivia_le : g.trivia.size ≤ g.largestPattern :=
  (le_foldl_max (f := fun r => (g.body r).size) g.rules g.trivia.size).1

theorem size_body_le {name : ρ} (mem : name ∈ g.rules) : (g.body name).size ≤ g.largestPattern :=
  (le_foldl_max (f := fun r => (g.body r).size) g.rules g.trivia.size).2 name mem

theorem inner_free_of_inner {kind : Kind} {mode : Mode} (h : kind.inner mode = .free) :
    kind.inner .free = .free := by
  cases kind with
  | normal | silent => rfl
  | atomic | compound | trivia => exact nomatch h

namespace Ranked

variable (ranked : g.Ranked known)
include ranked

/-- A match leaves no more characters than there were, and fewer unless the pattern may be empty. -/
theorem sound_length (depth : Nat) (around : Surroundings) (pattern : Pattern ρ) :
    (g.run depth around pattern).Sound fun p _ q =>
      q.rest.length + (if pattern.mayBeEmpty known then 0 else 1) ≤ p.rest.length :=
  (ranked.sound_begins depth 0 around pattern).mono fun _ _ _ h => h.length_le

theorem sound_length_skip (depth : Nat) (around : Surroundings) :
    (g.skip depth around).Sound fun p _ q => q.rest.length ≤ p.rest.length := by
  rw [skip]
  split
  · refine (ranked.sound_length depth _ g.trivia).mono fun p _ q h => ?_
    omega
  · exact Matcher.sound_nothing fun p => Nat.le_refl _

/-- **A run with enough depth has an answer.**  The induction is on the depth.  The characters left
are the first digit of what is needed: as long as there is no new character, calls go down in rank
and patterns get smaller. -/
theorem settles (depth : Nat) (around : Surroundings) (pattern : Pattern ρ) (bound : Nat)
    (p : Place) (descends : pattern.descends known g.rules.length bound = true)
    (le : bound ≤ g.rules.length) (free : around.mode = .free → 2 ≤ bound)
    (enough : g.need p.rest.length bound pattern.size ≤ depth) :
    (g.run depth around pattern).Settles p := by
  induction depth generalizing around pattern bound p with
  | zero =>
    have fits := g.lt_need p.rest.length bound pattern.size
    have positive := pattern.one_le_size
    omega
  | succ depth ih =>
    have here : g.need p.rest.length bound (pattern.size - 1) ≤ depth := by
      have positive := pattern.one_le_size
      rw [need_eq] at enough ⊢
      omega
    have skip : ∀ q : Place, q.rest.length ≤ p.rest.length → (g.skip depth around).Settles q := by
      intro q shorter
      rw [Grammar.skip]
      split
      · rename_i isFree
        have lower : 1 < bound := free isFree
        refine ih _ g.trivia 1 q ranked.trivia (by omega) (by rintro ⟨⟩) ?_
        calc g.need q.rest.length 1 g.trivia.size
            ≤ g.need p.rest.length 1 g.trivia.size := need_mono shorter 1 _
          _ ≤ g.need p.rest.length bound 0 := need_of_rank_lt lower _ size_trivia_le
          _ ≤ g.need p.rest.length bound (pattern.size - 1) := Nat.le_add_right _ _
          _ ≤ depth := here
      · exact Matcher.settles_nothing q
    -- a part of the pattern, at this place or after a character has been taken
    have part : ∀ (negated : Bool) (b : Pattern ρ) (q : Place), b.size < pattern.size →
        (q.rest.length < p.rest.length ∧
            b.descends known g.rules.length g.rules.length = true ∨
          q.rest.length ≤ p.rest.length ∧ b.descends known g.rules.length bound = true) →
        (g.run depth { around with negated } b).Settles q := by
      intro negated b q smaller place
      have size : g.need p.rest.length bound b.size ≤ depth := by
        rw [need_eq] at here ⊢
        omega
      rcases place with ⟨shorter, descends⟩ | ⟨shorter, descends⟩
      · refine ih { around with negated } b g.rules.length q descends (Nat.le_refl _) ?_ ?_
        · exact fun isFree => Nat.le_trans (free isFree) le
        · exact Nat.le_trans (need_of_lt shorter bound b.size) size
      · refine ih { around with negated } b bound q descends le free ?_
        exact Nat.le_trans (need_mono shorter bound b.size) size
    cases pattern with
    | text chars => exact Matcher.settles_text chars p
    | char k => exact Matcher.settles_char k p
    | atStart => exact Matcher.settles_when _ p
    | atEnd => exact Matcher.settles_when _ p
    | rule name =>
      have lower : known.rank name < bound := of_decide_eq_true descends
      have body := ih { around with mode := (g.kind name).inner around.mode } (g.body name)
        (known.rank name) p (ranked.descends name) (Nat.le_of_lt (ranked.rank_lt name))
        (fun isFree => ranked.two_le_rank name (inner_free_of_inner isFree))
        (Nat.le_trans (need_of_rank_lt lower _ (size_body_le (ranked.mem_rules name))) here)
      intro log
      simp only [run]
      split
      · exact body.asRule name _ _ log
      · exact body log
    | seq a b =>
      simp only [Pattern.descends, Bool.and_eq_true] at descends
      have first := part around.negated a p (by simp only [Pattern.size]; omega)
        (.inr ⟨Nat.le_refl _, descends.1⟩)
      refine first.andThen fun log nodes q matched => ?_
      have shorter := ranked.sound_length depth around a p log nodes q matched
      refine (skip q (by omega)).andThen fun log' blanks r skipped => ?_
      have shorter' := ranked.sound_length_skip depth around q log' blanks r skipped
      refine part around.negated b r (by simp only [Pattern.size]; omega) ?_
      by_cases lt : r.rest.length < p.rest.length
      · refine .inl ⟨lt, Pattern.descends_mono ?_ (Nat.le_refl _) descends.2⟩
        split <;> omega
      · -- nothing was taken, so the first part may be empty
        cases empty : a.mayBeEmpty known with
        | true =>
          rw [empty] at descends
          exact .inr ⟨by omega, descends.2⟩
        | false =>
          have taken : q.rest.length + 1 ≤ p.rest.length := by rwa [empty] at shorter
          omega
    | choice a b =>
      simp only [Pattern.descends, Bool.and_eq_true] at descends
      have first := part around.negated a p (by simp only [Pattern.size]; omega)
        (.inr ⟨Nat.le_refl _, descends.1⟩)
      have second := part around.negated b p (by simp only [Pattern.size]; omega)
        (.inr ⟨Nat.le_refl _, descends.2⟩)
      exact first.orElse second
    | many a =>
      simp only [Pattern.descends, Bool.and_eq_true, Bool.not_eq_true'] at descends
      obtain ⟨descends, nonempty⟩ := descends
      have smaller : a.size < (Pattern.many a).size := Nat.lt_succ_self _
      have top := Pattern.descends_mono le (Nat.le_refl _) descends
      have takes := ranked.sound_length depth around a
      rw [nonempty] at takes
      have first := part around.negated a p smaller (.inr ⟨Nat.le_refl _, descends⟩)
      refine Matcher.Settles.orElse (first.andThen fun log nodes q matched => ?_)
        (Matcher.settles_nothing p)
      have shorter : q.rest.length + 1 ≤ p.rest.length := takes p log nodes q matched
      refine Matcher.settles_iterate ?_ (fun r le => ?_) ?_
      · have fits := g.lt_need p.rest.length bound ((Pattern.many a).size - 1)
        omega
      · refine (skip r (by omega)).andThen fun log' blanks r' skipped => ?_
        have shorter' := ranked.sound_length_skip depth around r log' blanks r' skipped
        exact part around.negated a r' smaller (.inl ⟨by omega, top⟩)
      · refine Matcher.sound_andThen (ranked.sound_length_skip depth around) takes ?_
        intro p _ q _ r blanks item
        have item : r.rest.length + 1 ≤ q.rest.length := item
        omega
    | optional a =>
      exact (part around.negated a p (Nat.lt_succ_self _) (.inr ⟨Nat.le_refl _, descends⟩)).orElse
        (Matcher.settles_nothing p)
    | absent a =>
      exact (part (!around.negated) a p (Nat.lt_succ_self _)
        (.inr ⟨Nat.le_refl _, descends⟩)).absent

/-- A pattern gives an outcome at every place. -/
theorem exists_gives {pattern : Pattern ρ}
    (descends : pattern.descends known g.rules.length g.rules.length = true) (mode : Mode)
    (p : Place) : ∃ outcome, outcome ≠ .exhausted ∧ g.Gives mode pattern p outcome := by
  have settled := ranked.settles (g.need p.rest.length g.rules.length pattern.size)
    ⟨mode, false⟩ pattern g.rules.length p descends (Nat.le_refl _)
    (fun _ => ranked.two_le_length) (Nat.le_refl _) {}
  exact ⟨_, settled, gives_of_run settled⟩

/-- **Reading a text has an answer**: the bound that is chosen for the text is large enough. -/
theorem gives_read (rule : ρ) (source : List Char) :
    (g.read rule source).1 ≠ .exhausted ∧
      g.Gives .free (.rule rule) ⟨0, source⟩ (g.read rule source).1 := by
  have enough : g.need source.length g.rules.length 1 ≤ g.depthFor source := by
    have room := Nat.add_mul g.rules.length 2 (g.largestPattern + 3)
    rw [need, depthFor, Nat.mul_assoc, Nat.succ_mul source.length]
    omega
  have settled := ranked.settles (g.depthFor source) {} (.rule rule) g.rules.length ⟨0, source⟩
    (decide_eq_true (ranked.rank_lt rule)) (Nat.le_refl _) (fun _ => ranked.two_le_length) enough {}
  exact ⟨settled, gives_of_run settled⟩

/-- A match takes a stretch of the text. -/
theorem begins_of_gives {mode : Mode} {pattern : Pattern ρ} {p q : Place} {nodes : List (Node ρ)}
    (h : g.Gives mode pattern p (.matched nodes q)) (calls : Nat) :
    Begins (g.heads known calls mode pattern) (pattern.mayBeEmpty known) p q := by
  obtain ⟨enough, gives⟩ := h
  exact ranked.sound_begins enough calls ⟨mode, false⟩ pattern p {} nodes q
    (gives enough (Nat.le_refl _) false {})

/-- **Refusal by the first character.**  A pattern that takes a character refuses a text that begins
with none of its first characters, and the empty text. -/
theorem refuses {mode : Mode} {pattern : Pattern ρ} {text : List Char} (calls : Nat)
    (descends : pattern.descends known g.rules.length g.rules.length = true)
    (nonempty : pattern.mayBeEmpty known = false)
    (foreign : ∀ c ∈ text.head?, ∀ h ∈ g.heads known calls mode pattern, h.contains c = false) :
    g.Refuses mode pattern text := by
  intro offset
  obtain ⟨outcome, settled, gives⟩ := ranked.exists_gives descends mode ⟨offset, text⟩
  cases outcome with
  | exhausted => exact absurd rfl settled
  | failed => exact gives
  | matched nodes q =>
    obtain ⟨taken, reaches, empty, first⟩ := ranked.begins_of_gives gives calls
    have text_eq : text = taken ++ q.rest := reaches.rest_eq
    cases taken with
    | nil => exact nomatch nonempty.symm.trans (empty rfl)
    | cons c taken =>
      obtain ⟨h, mem, inside⟩ := first c rfl
      have outside := foreign c (by rw [text_eq]; rfl) h mem
      exact nomatch outside.symm.trans inside

/-- Where one pattern takes a character, a pattern with other first characters refuses. -/
theorem refuses_of_apart {mode mode' : Mode} {a b : Pattern ρ} {text rest : List Char}
    {P : List (Node ρ) → Prop} (taken : g.Takes mode a text rest P) (calls : Nat)
    (takes : a.mayBeEmpty known = false)
    (apart : ∀ h ∈ g.heads known calls mode a, ∀ h' ∈ g.heads known calls mode' b,
      h.isApart h' = true)
    (descends : b.descends known g.rules.length g.rules.length = true)
    (nonempty : b.mayBeEmpty known = false) : g.Refuses mode' b text := by
  obtain ⟨nodes, stop, -, gives⟩ := taken 0
  obtain ⟨taken, reaches, empty, first⟩ := ranked.begins_of_gives gives calls
  refine ranked.refuses calls descends nonempty fun c begins h' mem' => ?_
  cases taken with
  | nil => exact nomatch takes.symm.trans (empty rfl)
  | cons d taken =>
    have text_eq : text = d :: (taken ++ rest) := reaches.rest_eq
    obtain rfl : d = c := by
      rw [text_eq] at begins
      exact Option.some.inj begins
    obtain ⟨h, mem, inside⟩ := first d rfl
    exact Head.contains_eq_false_of_isApart (apart h mem h' mem') inside

theorem descends_body (name : ρ) :
    (g.body name).descends known g.rules.length g.rules.length = true :=
  Pattern.descends_mono (Nat.le_of_lt (ranked.rank_lt name)) (Nat.le_refl _) (ranked.descends name)

/-- Where a rule matches, its pattern does. -/
theorem gives_body {mode : Mode} {name : ρ} {p q : Place} {nodes : List (Node ρ)}
    (h : g.Gives mode (.rule name) p (.matched nodes q)) :
    ∃ children, g.Gives ((g.kind name).inner mode) (g.body name) p (.matched children q) := by
  obtain ⟨outcome, settled, gives⟩ :=
    ranked.exists_gives (ranked.descends_body name) ((g.kind name).inner mode) p
  cases outcome with
  | exhausted => exact absurd rfl settled
  | failed => exact nomatch gives.rule_failed.unique h
  | matched children q' =>
    obtain ⟨-, rfl⟩ := Outcome.matched.inj (gives.rule.unique h)
    exact ⟨children, gives⟩

/-- Where a rule fails, its pattern does. -/
theorem gives_body_failed {mode : Mode} {name : ρ} {p : Place}
    (h : g.Gives mode (.rule name) p .failed) :
    g.Gives ((g.kind name).inner mode) (g.body name) p .failed := by
  obtain ⟨outcome, settled, gives⟩ :=
    ranked.exists_gives (ranked.descends_body name) ((g.kind name).inner mode) p
  cases outcome with
  | exhausted => exact absurd rfl settled
  | failed => exact gives
  | matched children q => exact nomatch gives.rule.unique h

/-- The node of a rule holds the text that was taken. -/
theorem leaf {mode : Mode} {name : ρ} {taken rest : List Char} {P : List (Node ρ) → Prop}
    (h : g.Takes ((g.kind name).inner mode) (g.body name) (taken ++ rest) rest P)
    (kept : (g.kind name).isVisible = true ∧ (g.kind name).outer mode ≠ .atomic) :
    g.Takes mode (.rule name) (taken ++ rest) rest fun nodes =>
      ∃ start stop children, nodes = [.mk name start stop taken children] ∧ P children := by
  intro offset
  obtain ⟨nodes, stop, hP, gives⟩ := h offset
  obtain ⟨taken', reaches, -, -⟩ := ranked.begins_of_gives gives 0
  have taken_eq : taken = taken' := List.append_cancel_right reaches.rest_eq
  refine ⟨_, stop, ?_, gives.rule⟩
  rw [nodesOf, if_pos kept, reaches.upTo_eq, taken_eq]
  exact ⟨_, _, nodes, rfl, hP⟩

end Ranked

end Grammar

end ScriptTrace.Peg
