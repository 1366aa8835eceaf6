import ScriptTrace.Peg.Matcher

/-!
# What a match is made of

A grammar is a set of rules that call one another, and matching is a recursion on a bound that has
nothing to do with them.  This file turns a property of the rules into a property of every match.

## Two readings of a pattern

A match of a pattern takes a stretch of text and leaves nodes.  Both follow the pattern.

* `Pattern.Leaves`: the nodes, given which nodes the rules leave.  Only rules leave nodes; the nodes
  of a sequence are those of its parts one after the other.
* `Pattern.Spells`: the text, as far as the pattern itself says it.  It does not look into the rules
  that are called, and where blanks are skipped it says nothing of sequences.  So it says all there
  is to know of a word that is spelled out, and nothing of a statement.

## From one rule to every match

Let `leaves mode rule nodes` say which nodes a rule may leave.  It is *closed* under the grammar
(`Grammar.Closed`) when the nodes that the pattern of a rule leaves make a node that the rule may
leave.  Then every match is of this kind (`Grammar.Closed.sound_run`).  The proof is the one
induction on the bound; what is left for a grammar is one fact for each of its rules.

* `Matcher.Sound`: what all matches of a matcher satisfy, with a lemma for each combination.
* `Grammar.Closed.leaves_of_read`: the nodes that a rule leaves at the beginning of a text.
-/

namespace ScriptTrace.Peg

variable {ρ : Type}

/-! ## Stretches of text -/

namespace Place

/-- The text between two places. -/
structure Reaches (p : Place) (taken : List Char) (q : Place) : Prop where
  rest_eq : p.rest = taken ++ q.rest
  offset_eq : q.offset = p.offset + Text.byteLength taken

namespace Reaches

variable {p q r : Place} {taken more : List Char}

theorem refl (p : Place) : p.Reaches [] p :=
  ⟨rfl, rfl⟩

theorem trans (h : p.Reaches taken q) (h' : q.Reaches more r) : p.Reaches (taken ++ more) r where
  rest_eq := by rw [h.rest_eq, h'.rest_eq, List.append_assoc]
  offset_eq := by rw [h'.offset_eq, h.offset_eq, Text.byteLength_append, Nat.add_assoc]

theorem upTo_eq (h : p.Reaches taken q) : p.upTo q.offset = taken := by
  rw [h.offset_eq]
  exact p.upTo_advance taken q.rest h.rest_eq

end Reaches

end Place

/-! ## Two readings of a pattern -/

namespace Pattern

/-- The nodes that a match leaves, where `leaves` says which nodes the rules leave. -/
def Leaves (leaves : ρ → List (Node ρ) → Prop) : Pattern ρ → List (Node ρ) → Prop
  | .text _, nodes | .char _, nodes | .atStart, nodes | .atEnd, nodes | .absent _, nodes =>
    nodes = []
  | .rule name, nodes => leaves name nodes
  | .seq a b, nodes => ∃ xs ys, a.Leaves leaves xs ∧ b.Leaves leaves ys ∧ nodes = xs ++ ys
  | .choice a b, nodes => a.Leaves leaves nodes ∨ b.Leaves leaves nodes
  | .many a, nodes =>
    ∃ parts : List (List (Node ρ)), (∀ part ∈ parts, a.Leaves leaves part) ∧ nodes = parts.flatten
  | .optional a, nodes => a.Leaves leaves nodes ∨ nodes = []

/-- The text that a match takes, as far as the pattern says it. -/
def Spells (mode : Mode) : Pattern ρ → List Char → Prop
  | .text chars, taken => taken = chars
  | .char k, taken => ∃ c, k.contains c = true ∧ taken = [c]
  | .atStart, taken | .atEnd, taken | .absent _, taken => taken = []
  | .rule _, _ => True
  | .seq a b, taken => mode = .free ∨ ∃ t u, a.Spells mode t ∧ b.Spells mode u ∧ taken = t ++ u
  | .choice a b, taken => a.Spells mode taken ∨ b.Spells mode taken
  | .many a, taken =>
    mode = .free ∨
      ∃ parts : List (List Char), (∀ part ∈ parts, a.Spells mode part) ∧ taken = parts.flatten
  | .optional a, taken => a.Spells mode taken ∨ taken = []

/-- The rules whose matches are part of a match. -/
def calls : Pattern ρ → List ρ
  | .text _ | .char _ | .atStart | .atEnd | .absent _ => []
  | .rule name => [name]
  | .seq a b | .choice a b => a.calls ++ b.calls
  | .many a | .optional a => a.calls

/-- What holds of all nodes of the rules called holds of all nodes of a match. -/
theorem Leaves.forall_mem {leaves : ρ → List (Node ρ) → Prop} {P : Node ρ → Prop}
    {pattern : Pattern ρ} {nodes : List (Node ρ)} (h : pattern.Leaves leaves nodes)
    (each : ∀ name ∈ pattern.calls, ∀ nodes, leaves name nodes → ∀ node ∈ nodes, P node) :
    ∀ node ∈ nodes, P node := by
  induction pattern generalizing nodes with
  | text _ | char _ | atStart | atEnd | absent _ =>
    intro node mem
    rw [show nodes = [] from h] at mem
    exact nomatch mem
  | rule name => exact each name (List.mem_singleton_self name) nodes h
  | seq a b iha ihb =>
    obtain ⟨xs, ys, hx, hy, rfl⟩ := h
    obtain ⟨inFirst, inSecond⟩ := List.forall_mem_append.mp each
    exact List.forall_mem_append.mpr ⟨iha hx inFirst, ihb hy inSecond⟩
  | choice a b iha ihb =>
    obtain ⟨inFirst, inSecond⟩ := List.forall_mem_append.mp each
    rcases h with h | h
    · exact iha h inFirst
    · exact ihb h inSecond
  | many a ih =>
    obtain ⟨parts, hparts, rfl⟩ := h
    intro node mem
    obtain ⟨part, hpart, inside⟩ := List.mem_flatten.mp mem
    exact ih (hparts part hpart) each node inside
  | optional a ih =>
    rcases h with h | rfl
    · exact ih h each
    · exact fun node mem => nomatch mem

/-- Where the rules called leave no nodes, neither does a match. -/
theorem Leaves.eq_nil {leaves : ρ → List (Node ρ) → Prop} {pattern : Pattern ρ}
    {nodes : List (Node ρ)} (h : pattern.Leaves leaves nodes)
    (each : ∀ name ∈ pattern.calls, ∀ nodes, leaves name nodes → nodes = []) : nodes = [] := by
  refine List.eq_nil_iff_forall_not_mem.mpr (h.forall_mem fun name called nodes left node mem => ?_)
  rw [each name called nodes left] at mem
  exact nomatch mem

end Pattern

/-! ## Matchers -/

namespace Matcher

/-- A relation between the places around a match and its nodes that holds for all matches. -/
def Sound (m : Matcher ρ) (R : Place → List (Node ρ) → Place → Prop) : Prop :=
  ∀ p log nodes q, (m p log).1 = .matched nodes q → R p nodes q

variable {first second item : Matcher ρ} {R S T : Place → List (Node ρ) → Place → Prop}

theorem Sound.mono (h : item.Sound R) (le : ∀ p nodes q, R p nodes q → S p nodes q) :
    item.Sound S :=
  fun p log nodes q run => le p nodes q (h p log nodes q run)

theorem sound_nothing (here : ∀ p, R p [] p) : (nothing : Matcher ρ).Sound R := by
  rintro p log nodes q ⟨⟩
  exact here p

theorem sound_text {chars : List Char} (eaten : ∀ p q, p.Reaches chars q → R p [] q) :
    (text chars : Matcher ρ).Sound R := by
  intro p log nodes q run
  rw [text] at run
  cases eat : p.eat? chars with
  | none =>
    rw [eat] at run
    exact nomatch run
  | some q' =>
    rw [eat] at run
    obtain ⟨rfl, rfl⟩ := Outcome.matched.inj run
    obtain ⟨rest, offset⟩ := Place.eat?_eq_some_iff.mp eat
    exact eaten p q' ⟨rest, offset⟩

theorem sound_char {k : CharClass}
    (eaten : ∀ p c q, k.contains c = true → p.Reaches [c] q → R p [] q) :
    (char k : Matcher ρ).Sound R := by
  rintro ⟨offset, rest⟩ log nodes q run
  cases rest with
  | nil => exact nomatch run
  | cons c rest =>
    simp only [char] at run
    split at run
    · rename_i inside
      obtain ⟨rfl, rfl⟩ := Outcome.matched.inj run
      exact eaten _ c _ inside ⟨rfl, rfl⟩
    · exact nomatch run

theorem sound_when {condition : Place → Bool} (here : ∀ p, R p [] p) :
    (when condition : Matcher ρ).Sound R := by
  intro p log nodes q run
  rw [when] at run
  split at run
  · obtain ⟨rfl, rfl⟩ := Outcome.matched.inj run
    exact here p
  · exact nomatch run

theorem sound_absent (here : ∀ p, R p [] p) : (absent item).Sound R := by
  intro p log nodes q run
  rw [absent] at run
  split at run
  · exact nomatch run
  · obtain ⟨rfl, rfl⟩ := Outcome.matched.inj run
    exact here p
  · exact nomatch run

/-- Nodes are only put in front of those of a match. -/
theorem eq_matched_of_prepend {xs nodes : List (Node ρ)} {q : Place} {outcome : Outcome ρ}
    (h : outcome.prepend xs = .matched nodes q) :
    ∃ ys, outcome = .matched ys q ∧ nodes = xs ++ ys := by
  cases outcome with
  | matched ys place =>
    obtain ⟨rfl, rfl⟩ := Outcome.matched.inj h
    exact ⟨ys, rfl, rfl⟩
  | failed => exact nomatch h
  | exhausted => exact nomatch h

theorem sound_andThen (hf : first.Sound R) (hs : second.Sound S)
    (join : ∀ p xs q ys r, R p xs q → S q ys r → T p (xs ++ ys) r) :
    (first.andThen second).Sound T := by
  intro p log nodes q run
  rw [andThen] at run
  rcases answer : first p log with ⟨outcome, log₁⟩
  rw [answer] at run
  cases outcome with
  | matched xs p' =>
    obtain ⟨ys, there, rfl⟩ := eq_matched_of_prepend run
    have here := hf p log xs p' (congrArg Prod.fst answer)
    exact join p xs p' ys q here (hs p' log₁ ys q there)
  | failed => exact nomatch run
  | exhausted => exact nomatch run

theorem sound_orElse (hf : first.Sound R) (hs : second.Sound R) :
    (first.orElse second).Sound R := by
  intro p log nodes q run
  rw [orElse] at run
  rcases answer : first p log with ⟨outcome, log₁⟩
  rw [answer] at run
  cases outcome with
  | matched xs p' => exact hf p log nodes q ((congrArg Prod.fst answer).trans run)
  | failed => exact hs p log₁ nodes q run
  | exhausted => exact nomatch run

/-- What holds of no items, and with one more item if it holds without, holds of many. -/
theorem sound_iterate (none : ∀ p, S p [] p) (hi : item.Sound R)
    (more : ∀ p xs q ys r, R p xs q → S q ys r → S p (xs ++ ys) r) (bound : Nat) :
    (iterate item bound).Sound S := by
  induction bound with
  | zero => exact fun p log nodes q run => nomatch run
  | succ bound ih =>
    intro p log nodes q run
    rw [iterate] at run
    rcases answer : item p log with ⟨outcome, log₁⟩
    rw [answer] at run
    cases outcome with
    | matched xs p' =>
      obtain ⟨ys, there, rfl⟩ := eq_matched_of_prepend run
      have here := hi p log xs p' (congrArg Prod.fst answer)
      exact more p xs p' ys q here (ih p' log₁ ys q there)
    | failed =>
      obtain ⟨rfl, rfl⟩ := Outcome.matched.inj run
      exact none p
    | exhausted => exact nomatch run

theorem sound_repeated {next : Matcher ρ} (none : ∀ p, S p [] p) (hf : first.Sound R)
    (hn : next.Sound R) (more : ∀ p xs q ys r, R p xs q → S q ys r → S p (xs ++ ys) r)
    (bound : Nat) : (repeated bound first next).Sound S :=
  sound_orElse (sound_andThen hf (sound_iterate none hn more bound) more) (sound_nothing none)

/-- The nodes of a rule, given the nodes of its pattern. -/
theorem sound_asRule {rule : ρ} {mode : Mode} {negated : Bool} (hi : item.Sound R)
    (made : ∀ p nodes q, R p nodes q →
      S p (if mode = .atomic then nodes
        else [.mk rule p.offset q.offset (p.upTo q.offset) nodes]) q) :
    (asRule rule mode negated item).Sound S := by
  intro p log nodes q run
  rw [asRule] at run
  rcases answer : item p log with ⟨outcome, after⟩
  rw [answer] at run
  cases outcome with
  | matched xs p' =>
    have here := made p xs p' (hi p log xs p' (congrArg Prod.fst answer))
    by_cases atomic : mode = .atomic
    · simp only [atomic, if_true] at run here
      obtain ⟨rfl, rfl⟩ := Outcome.matched.inj run
      exact here
    · simp only [atomic, if_false] at run here
      obtain ⟨rfl, rfl⟩ := Outcome.matched.inj run
      exact here
  | failed =>
    simp only at run
    split at run <;> exact nomatch run
  | exhausted => exact nomatch run

end Matcher

/-! ## Matches of a grammar -/

/-- The nodes that a rule leaves, given the stretch of its match and the nodes of its pattern. -/
def Grammar.nodesOf (g : Grammar ρ) (mode : Mode) (rule : ρ) (start stop : Nat) (text : List Char)
    (children : List (Node ρ)) : List (Node ρ) :=
  if (g.kind rule).isVisible = true ∧ (g.kind rule).outer mode ≠ .atomic then
    [.mk rule start stop text children]
  else children

/-- A property of the nodes that rules leave, which every rule has if the rules that it calls have
it. -/
structure Grammar.Closed (g : Grammar ρ) (leaves : Mode → ρ → List (Node ρ) → Prop) : Prop where
  trivia : ∀ {nodes}, g.trivia.Leaves (leaves .atomic) nodes → nodes = []
  rule : ∀ {mode rule start stop text children},
    (g.body rule).Spells ((g.kind rule).inner mode) text →
    (g.body rule).Leaves (leaves ((g.kind rule).inner mode)) children →
      leaves mode rule (g.nodesOf mode rule start stop text children)

/-- What is known of a match of a pattern. -/
def Pattern.Reads (leaves : Mode → ρ → List (Node ρ) → Prop) (mode : Mode) (pattern : Pattern ρ)
    (p : Place) (nodes : List (Node ρ)) (q : Place) : Prop :=
  ∃ taken, p.Reaches taken q ∧ pattern.Spells mode taken ∧ pattern.Leaves (leaves mode) nodes

namespace Pattern.Reads

variable {leaves : Mode → ρ → List (Node ρ) → Prop} {mode : Mode} {a b : Pattern ρ}
variable {p q r : Place} {xs ys : List (Node ρ)}

/-- One of several items, where the text may begin with blanks if blanks are skipped. -/
def Item (leaves : Mode → ρ → List (Node ρ) → Prop) (mode : Mode) (a : Pattern ρ) (p : Place)
    (nodes : List (Node ρ)) (q : Place) : Prop :=
  ∃ taken, p.Reaches taken q ∧ (mode = .free ∨ a.Spells mode taken) ∧ a.Leaves (leaves mode) nodes

theorem item (h : a.Reads leaves mode p xs q) : Item leaves mode a p xs q := by
  obtain ⟨taken, reaches, spells, left⟩ := h
  exact ⟨taken, reaches, Or.inr spells, left⟩

theorem seq (first : a.Reads leaves mode p xs q) (second : Item leaves mode b q ys r) :
    (Pattern.seq a b).Reads leaves mode p (xs ++ ys) r := by
  obtain ⟨t, reaches, spells, left⟩ := first
  obtain ⟨u, reaches', spells', left'⟩ := second
  refine ⟨t ++ u, reaches.trans reaches', ?_, xs, ys, left, left', rfl⟩
  exact spells'.imp id fun spells' => ⟨t, u, spells, spells', rfl⟩

theorem many_nil (p : Place) : (Pattern.many a).Reads leaves mode p [] p :=
  ⟨[], .refl p, Or.inr ⟨[], by simp, rfl⟩, [], by simp, rfl⟩

theorem many_cons (first : Item leaves mode a p xs q)
    (rest : (Pattern.many a).Reads leaves mode q ys r) :
    (Pattern.many a).Reads leaves mode p (xs ++ ys) r := by
  obtain ⟨t, reaches, spells, left⟩ := first
  obtain ⟨u, reaches', spells', parts, lefts, rfl⟩ := rest
  refine ⟨t ++ u, reaches.trans reaches', ?_, xs :: parts, List.forall_mem_cons.mpr ⟨left, lefts⟩,
    rfl⟩
  rcases spells with free | spells
  · exact Or.inl free
  · refine spells'.imp id ?_
    rintro ⟨texts, each, rfl⟩
    exact ⟨t :: texts, List.forall_mem_cons.mpr ⟨spells, each⟩, rfl⟩

end Pattern.Reads

namespace Grammar.Closed

variable {g : Grammar ρ} {leaves : Mode → ρ → List (Node ρ) → Prop}

/-- An item after what is skipped, which leaves no nodes, and is nothing where blanks are not
skipped. -/
theorem sound_skip (closed : g.Closed leaves) {mode : Mode} {a : Pattern ρ}
    {blanks item : Matcher ρ} (hb : blanks.Sound (g.trivia.Reads leaves .atomic))
    (hi : item.Sound (a.Reads leaves mode)) :
    ((if mode = .free then blanks else Matcher.nothing).andThen item).Sound
      (Pattern.Reads.Item leaves mode a) := by
  split
  · rename_i free
    refine Matcher.sound_andThen hb hi ?_
    rintro p xs q ys r ⟨t, reaches, -, skipped⟩ ⟨u, reaches', -, left⟩
    rw [closed.trivia skipped]
    exact ⟨t ++ u, reaches.trans reaches', Or.inl free, left⟩
  · refine Matcher.sound_andThen (R := fun p xs q => p = q ∧ xs = [])
      (Matcher.sound_nothing fun p => ⟨rfl, rfl⟩) hi ?_
    rintro p xs q ys r ⟨rfl, rfl⟩ reads
    exact reads.item

/-- The node of a rule around a match of its pattern. -/
theorem sound_rule (closed : g.Closed leaves) {name : ρ} {mode : Mode} {negated : Bool}
    {item : Matcher ρ} (hi : item.Sound ((g.body name).Reads leaves ((g.kind name).inner mode))) :
    Matcher.Sound (fun p log =>
        if (g.kind name).isVisible then
          Matcher.asRule name ((g.kind name).outer mode) negated item p log
        else item p log)
      ((Pattern.rule name).Reads leaves mode) := by
  have made : ∀ p nodes q, (g.body name).Reads leaves ((g.kind name).inner mode) p nodes q →
      (Pattern.rule name).Reads leaves mode p
        (g.nodesOf mode name p.offset q.offset (p.upTo q.offset) nodes) q := by
    rintro p nodes q ⟨taken, reaches, spells, left⟩
    rw [reaches.upTo_eq]
    exact ⟨taken, reaches, trivial, closed.rule spells left⟩
  cases visible : (g.kind name).isVisible with
  | true =>
    refine Matcher.sound_asRule hi fun p nodes q reads => ?_
    have reads := made p nodes q reads
    by_cases atomic : (g.kind name).outer mode = .atomic
    · rw [nodesOf, if_neg fun kept => kept.2 atomic] at reads
      rwa [if_pos atomic]
    · rw [nodesOf, if_pos ⟨visible, atomic⟩] at reads
      rwa [if_neg atomic]
  | false =>
    refine hi.mono fun p nodes q reads => ?_
    have hidden : ¬ (g.kind name).isVisible = true := by rw [visible]; decide
    have reads := made p nodes q reads
    rwa [nodesOf, if_neg fun kept => hidden kept.1] at reads

/-- **Every match has the nodes that the rules leave**, if what the rules leave is closed under the
grammar.  The induction is on the depth; a match of a pattern is put together from matches of its
parts at a smaller one. -/
theorem sound_run (closed : g.Closed leaves) (depth : Nat) (around : Surroundings)
    (pattern : Pattern ρ) :
    Matcher.Sound (g.run depth around pattern) (pattern.Reads leaves around.mode) := by
  induction depth generalizing around pattern with
  | zero => exact fun p log nodes q run => nomatch run
  | succ depth ih =>
    have blanks := ih { around with mode := .atomic } g.trivia
    cases pattern with
    | text chars => exact Matcher.sound_text fun p q eaten => ⟨chars, eaten, rfl, rfl⟩
    | char k =>
      exact Matcher.sound_char fun p c q inside eaten => ⟨[c], eaten, ⟨c, inside, rfl⟩, rfl⟩
    | atStart => exact Matcher.sound_when fun p => ⟨[], .refl p, rfl, rfl⟩
    | atEnd => exact Matcher.sound_when fun p => ⟨[], .refl p, rfl, rfl⟩
    | absent a => exact Matcher.sound_absent fun p => ⟨[], .refl p, rfl, rfl⟩
    | rule name => exact closed.sound_rule (ih _ _)
    | seq a b =>
      exact Matcher.sound_andThen (ih around a) (closed.sound_skip blanks (ih around b))
        fun p xs q ys r => Pattern.Reads.seq
    | choice a b =>
      refine Matcher.sound_orElse ((ih around a).mono ?_) ((ih around b).mono ?_)
      · rintro p nodes q ⟨taken, reaches, spells, left⟩
        exact ⟨taken, reaches, Or.inl spells, Or.inl left⟩
      · rintro p nodes q ⟨taken, reaches, spells, left⟩
        exact ⟨taken, reaches, Or.inr spells, Or.inr left⟩
    | many a =>
      exact Matcher.sound_repeated Pattern.Reads.many_nil
        ((ih around a).mono fun p nodes q => Pattern.Reads.item)
        (closed.sound_skip blanks (ih around a))
        (fun p xs q ys r => Pattern.Reads.many_cons) depth
    | optional a =>
      refine Matcher.sound_orElse ((ih around a).mono ?_) (Matcher.sound_nothing fun p => ?_)
      · rintro p nodes q ⟨taken, reaches, spells, left⟩
        exact ⟨taken, reaches, Or.inl spells, Or.inl left⟩
      · exact ⟨[], .refl p, Or.inr rfl, Or.inr rfl⟩

/-- The nodes that a rule leaves at the beginning of a text. -/
theorem leaves_of_read (closed : g.Closed leaves) {rule : ρ} {source : List Char}
    {nodes : List (Node ρ)} {q : Place} (h : (g.read rule source).1 = .matched nodes q) :
    leaves .free rule nodes := by
  obtain ⟨-, -, -, left⟩ := closed.sound_run _ {} (.rule rule) ⟨0, source⟩ {} nodes q h
  exact left

end Grammar.Closed

end ScriptTrace.Peg
