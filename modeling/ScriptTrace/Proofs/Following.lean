import ScriptTrace.Proofs.Outcomes

/-!
# What follows a word

A word ends where its pattern meets a character that it has no use for.  So a word that a pattern
takes when it stands alone is taken also when such a character follows it, whatever comes after that
character; and a text that is refused when it stands alone is refused then too.

A pattern has no use for a character if none of the texts and sets of characters in it, and in the
rules that it calls, has the character (`Pattern.ignores`).  Matching the text with the character
after it then goes step by step with matching the text alone: a simulation between places that
differ by what follows (`Grammar.sim_run_of_ignores`).  This is for patterns that skip no blanks,
and whose rules leave no nodes.

* `Grammar.takes_of_alone`, `Grammar.refuses_of_alone`: from a text that stands alone to the same
  text with something after it.
-/

namespace ScriptTrace.Peg

variable {ρ : Type}

/-- Whether a pattern has no use for a character, where `ofRule` says it of the rules. -/
def Pattern.ignores (c : Char) (ofRule : ρ → Bool) : Pattern ρ → Bool
  | .text chars => !chars.contains c
  | .char k => !k.contains c
  | .atStart | .atEnd => false
  | .rule name => ofRule name
  | .seq a b | .choice a b => a.ignores c ofRule && b.ignores c ofRule
  | .many a | .optional a | .absent a => a.ignores c ofRule

/-- Whether a rule has no use for a character.  The search goes down to a given number of calls. -/
def Grammar.ignores (g : Grammar ρ) (c : Char) : Nat → ρ → Bool
  | 0, _ => false
  | calls + 1, name => g.kind name != .compound && (g.body name).ignores c (g.ignores c calls)

/-- The text of the second place is that of the first with more after it. -/
def Place.ContinuedBy (more : List Char) (p p' : Place) : Prop :=
  p'.rest = p.rest ++ more

variable {c : Char} {tail : List Char}

/-- A word without a character does not reach beyond that character. -/
theorem isPrefix_of_not_mem {chars text : List Char} (foreign : c ∉ chars)
    (h : chars <+: text ++ c :: tail) : chars <+: text := by
  obtain ⟨after, eq⟩ := h
  rcases List.append_eq_append_iff.mp eq with ⟨inside, rfl, -⟩ | ⟨beyond, rfl, rest⟩
  · exact List.prefix_append _ _
  · cases beyond with
    | nil => exact (List.append_nil text).symm ▸ List.prefix_refl _
    | cons d beyond =>
      obtain ⟨rfl, -⟩ := List.cons.inj rest
      exact absurd (List.mem_append_right _ List.mem_cons_self) foreign

theorem Matcher.sim_text_of_not_mem {chars : List Char} (foreign : c ∉ chars) :
    Matcher.Sim (Place.ContinuedBy (c :: tail)) (text chars : Matcher ρ) (text chars) := by
  intro p p' log log' continued
  have continued : p'.rest = p.rest ++ c :: tail := continued
  rw [text, text]
  cases eaten : p.eat? chars with
  | some q =>
    obtain ⟨rest, -⟩ := Place.eat?_eq_some_iff.mp eaten
    have eaten' : p'.eat? chars =
        some ⟨p'.offset + Text.byteLength chars, q.rest ++ c :: tail⟩ := by
      refine Place.eat?_eq_some_iff.mpr ⟨?_, rfl⟩
      rw [continued, rest, List.append_assoc]
    rw [eaten']
    exact .matched [] rfl
  | none =>
    cases eaten' : p'.eat? chars with
    | none => exact .failed
    | some q' =>
      obtain ⟨rest', -⟩ := Place.eat?_eq_some_iff.mp eaten'
      obtain ⟨inside, rest⟩ : chars <+: p.rest :=
        isPrefix_of_not_mem foreign ⟨q'.rest, rest'.symm.trans continued⟩
      have part : p.eat? chars = some ⟨p.offset + Text.byteLength chars, inside⟩ :=
        Place.eat?_eq_some_iff.mpr ⟨rest.symm, rfl⟩
      cases eaten.symm.trans part

theorem Matcher.sim_char_of_not_contains {k : CharClass} (foreign : k.contains c = false) :
    Matcher.Sim (Place.ContinuedBy (c :: tail)) (char k : Matcher ρ) (char k) := by
  rintro ⟨offset, rest⟩ ⟨offset', rest'⟩ log log' continued
  obtain rfl : rest' = rest ++ c :: tail := continued
  cases rest with
  | nil =>
    simp only [char, List.nil_append, foreign]
    exact .failed
  | cons d rest =>
    simp only [char, List.cons_append]
    cases k.contains d with
    | true => exact .matched [] rfl
    | false => exact .failed

namespace Grammar

variable {g : Grammar ρ}

/-- **Matching goes on in the same way when a foreign character follows.** -/
theorem sim_run_of_ignores (tail : List Char) {calls depth depth' : Nat} (le : depth ≤ depth')
    (negated negated' : Bool) {pattern : Pattern ρ}
    (ignored : pattern.ignores c (g.ignores c calls) = true) :
    Matcher.Sim (Place.ContinuedBy (c :: tail)) (g.run depth ⟨.atomic, negated⟩ pattern)
      (g.run depth' ⟨.atomic, negated'⟩ pattern) := by
  induction depth generalizing calls depth' negated negated' pattern with
  | zero => exact fun _ _ _ _ _ => .exhausted _
  | succ depth ih =>
    obtain ⟨more, rfl⟩ : ∃ more, depth' = more + 1 := ⟨depth' - 1, by omega⟩
    have le : depth ≤ more := Nat.le_of_succ_le_succ le
    cases pattern with
    | text chars => exact Matcher.sim_text_of_not_mem (by simpa [Pattern.ignores] using ignored)
    | char k => exact Matcher.sim_char_of_not_contains (by simpa [Pattern.ignores] using ignored)
    | atStart => exact nomatch ignored
    | atEnd => exact nomatch ignored
    | rule name =>
      cases calls with
      | zero => exact nomatch ignored
      | succ calls =>
        have both : g.kind name ≠ .compound ∧
            (g.body name).ignores c (g.ignores c calls) = true := by
          simpa [Pattern.ignores, Grammar.ignores] using ignored
        have inner : (g.kind name).inner .atomic = .atomic := by
          cases kind : g.kind name <;> first | rfl | exact absurd kind both.1
        have outer : (g.kind name).outer .atomic = .atomic := by
          cases kind : g.kind name <;> first | rfl | exact absurd kind both.1
        have body := ih le negated negated' both.2
        intro p p' log log' continued
        simp only [run, inner, outer]
        split
        · exact body.asRule_atomic name negated negated' p p' log log' continued
        · exact body p p' log log' continued
    | seq a b =>
      have both := Bool.and_eq_true_iff.mp ignored
      exact (ih le negated negated' both.1).andThen
        (Matcher.Sim.nothing.andThen (ih le negated negated' both.2))
    | choice a b =>
      have both := Bool.and_eq_true_iff.mp ignored
      exact (ih le negated negated' both.1).orElse (ih le negated negated' both.2)
    | many a =>
      have inside : a.ignores c (g.ignores c calls) = true := ignored
      have item := ih le negated negated' inside
      exact item.repeated (Matcher.Sim.nothing.andThen item) le
    | optional a =>
      have inside : a.ignores c (g.ignores c calls) = true := ignored
      exact (ih le negated negated' inside).orElse .nothing
    | absent a =>
      have inside : a.ignores c (g.ignores c calls) = true := ignored
      exact (ih le (!negated) (!negated') inside).absent

variable {pattern : Pattern ρ} {text : List Char} {offset : Nat}

/-- What a pattern gives for a text that stands alone, it gives for the text with a foreign
character after it. -/
theorem Gives.sim {calls : Nat} (ignored : pattern.ignores c (g.ignores c calls) = true)
    {outcome : Outcome ρ} (h : g.Gives .atomic pattern ⟨offset, text⟩ outcome)
    (settled : outcome ≠ .exhausted) (tail : List Char) (offset' : Nat) :
    ∃ outcome', outcome.Sim (Place.ContinuedBy (c :: tail)) outcome' ∧
      g.Gives .atomic pattern ⟨offset', text ++ c :: tail⟩ outcome' := by
  obtain ⟨enough, gives⟩ := h
  have sim := sim_run_of_ignores tail (Nat.le_refl enough) false false ignored
    ⟨offset, text⟩ ⟨offset', text ++ c :: tail⟩ {} {} rfl
  rw [gives enough (Nat.le_refl _) false {}] at sim
  refine ⟨_, sim, gives_of_run fun cut => ?_⟩
  rw [cut] at sim
  cases sim
  exact settled rfl

theorem takes_of_alone {calls : Nat} (ignored : pattern.ignores c (g.ignores c calls) = true)
    {nodes : List (Node ρ)} {stop : Nat}
    (h : g.Gives .atomic pattern ⟨offset, text⟩ (.matched nodes ⟨stop, []⟩)) (tail : List Char) :
    g.Takes .atomic pattern (text ++ c :: tail) (c :: tail) (· = nodes) := by
  intro offset'
  obtain ⟨outcome', sim, gives⟩ := h.sim ignored (fun same => nomatch same) tail offset'
  cases sim with
  | @matched _ _ q' after =>
    obtain ⟨stop', rest⟩ := q'
    obtain rfl : rest = c :: tail := after
    exact ⟨nodes, stop', rfl, gives⟩

theorem refuses_of_alone {calls : Nat} (ignored : pattern.ignores c (g.ignores c calls) = true)
    (h : g.Gives .atomic pattern ⟨offset, text⟩ .failed) (tail : List Char) :
    g.Refuses .atomic pattern (text ++ c :: tail) := by
  intro offset'
  obtain ⟨outcome', sim, gives⟩ := h.sim ignored (fun same => nomatch same) tail offset'
  cases sim with
  | failed => exact gives

end Grammar

end ScriptTrace.Peg
