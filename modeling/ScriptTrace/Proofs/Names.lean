import ScriptTrace.Proofs.Derivations
import ScriptTrace.Proofs.Evaluation
import ScriptTrace.Proofs.Words

/-!
# Names in a text

A name begins with a letter, an underscore or a dollar sign, and goes on with these and with digits.
At every place of a text there is a longest name, perhaps none (`leadingName`), and all rules that
spell names or reserved words look at this one alone.

* The rule for property names takes it.
* The rule for names takes it unless it is reserved.
* A rule for some of the reserved words takes it if it is one of them.

None of the rules takes anything else (`Language.gives_nameRule`).

The rules for reserved words are ordered choices that are not tried again, followed by a check that
the word does not go on.  Both do no harm for the same reason: the reserved words are names, so one
that stands at a place without being the longest name there is followed by a character that goes on
with it, and no other reserved word can stand there, since none begins another.

* `isName`, `leadingName`, `IsLongestName`: names, and the longest one at the beginning of a text.
* `Language.admits`: which names a rule takes.
* `Language.takes_nameRule`, `Language.refuses_nameRule`: what the rules do with a text.
* `Language.gives_nameRule`: the same for a place, with the place after the match.
* `Language.name_of_grown`: the text of a node of these rules.
-/

namespace ScriptTrace

open Peg Pattern

/-! ## The longest name -/

/-- Whether a name can begin with a character. -/
def opensName (c : Char) : Bool :=
  c.isAlpha || c == '_' || c == '$'

/-- Whether a name can go on with a character. -/
def continuesName (c : Char) : Bool :=
  c.isAlphanum || c == '_' || c == '$'

/-- Whether a text is a name. -/
def isName : List Char → Bool
  | [] => false
  | c :: cs => opensName c && cs.all continuesName

/-- The longest name at the beginning of a text; if there is none, no characters. -/
def leadingName : List Char → List Char
  | [] => []
  | c :: cs => if opensName c then c :: cs.takeWhile continuesName else []

/-- A text does not go on with a name that ends before it. -/
def EndsName (rest : List Char) : Prop :=
  ∀ c ∈ rest.head?, continuesName c = false

/-- A text begins with some characters, which are a name or none at all, and with no longer name. -/
structure IsLongestName (text m : List Char) : Prop where
  isPrefix : m <+: text
  isName : m = [] ∨ isName m = true
  longest : ∀ w, w <+: text → ScriptTrace.isName w = true → w.length ≤ m.length

section LongestName

variable {w rest text : List Char}

theorem isName_cons {c : Char} {cs : List Char} :
    isName (c :: cs) = true ↔ opensName c = true ∧ ∀ d ∈ cs, continuesName d = true := by
  rw [isName, Bool.and_eq_true, List.all_eq_true]

theorem ne_nil_of_isName (name : isName w = true) : w ≠ [] := by
  rintro rfl
  exact nomatch name

/-- A name that does not go on is the longest one. -/
theorem leadingName_append (name : isName w = true) (ends : EndsName rest) :
    leadingName (w ++ rest) = w := by
  cases w with
  | nil => exact nomatch name
  | cons c cs =>
    obtain ⟨opens, continues⟩ := isName_cons.mp name
    have stops : rest.takeWhile continuesName = [] := by
      cases rest with
      | nil => rfl
      | cons d rest => rw [List.takeWhile_cons, if_neg (by simp [ends d rfl])]
    rw [List.cons_append, leadingName, if_pos opens, List.takeWhile_append_of_pos continues, stops,
      List.append_nil]

/-- What follows the longest name does not go on with it. -/
theorem exists_of_leadingName (nonempty : leadingName text ≠ []) :
    isName (leadingName text) = true ∧
      ∃ rest, text = leadingName text ++ rest ∧ EndsName rest := by
  cases text with
  | nil => exact absurd rfl nonempty
  | cons c cs =>
    by_cases opens : opensName c = true
    · rw [leadingName, if_pos opens]
      refine ⟨isName_cons.mpr ⟨opens, List.all_eq_true.mp List.all_takeWhile⟩,
        cs.dropWhile continuesName, ?_, fun d here => ?_⟩
      · rw [List.cons_append, List.takeWhile_append_dropWhile]
      · have stops := List.head?_dropWhile_not continuesName cs
        rwa [here] at stops
    · rw [leadingName, if_neg opens] at nonempty
      exact absurd rfl nonempty

theorem leadingName_isPrefix (text : List Char) : leadingName text <+: text := by
  by_cases none : leadingName text = []
  · rw [none]
    exact List.nil_prefix
  · obtain ⟨-, rest, split, -⟩ := exists_of_leadingName none
    exact ⟨rest, split.symm⟩

theorem exists_of_not_endsName (goesOn : ¬ EndsName rest) :
    ∃ c rest', rest = c :: rest' ∧ continuesName c = true := by
  cases rest with
  | nil => exact absurd (fun c here => nomatch here) goesOn
  | cons c rest =>
    refine ⟨c, rest, rfl, ?_⟩
    cases continues : continuesName c with
    | true => rfl
    | false => exact absurd (fun d here => Option.some.inj here ▸ continues) goesOn

/-- **The longest name is the longest.** -/
theorem isLongestName_leadingName (text : List Char) : IsLongestName text (leadingName text) where
  isPrefix := leadingName_isPrefix text
  isName := by
    by_cases none : leadingName text = []
    · exact .inl none
    · exact .inr (exists_of_leadingName none).1
  longest := by
    rintro w ⟨rest, rfl⟩ name
    cases w with
    | nil => exact nomatch name
    | cons c cs =>
      obtain ⟨opens, continues⟩ := isName_cons.mp name
      rw [List.cons_append, leadingName, if_pos opens, List.takeWhile_append_of_pos continues]
      simp

end LongestName

namespace Language

variable {mode : Mode} {w text rest : List Char}

/-! ## The characters of names -/

/-- A character of a set, an underscore or a dollar sign. -/
def nameChar (k : CharClass) : Pattern Rule :=
  oneOf (.char k) [word "_", word "$"]

theorem takes_nameChar {k : CharClass} {c : Char}
    (inside : (k.contains c || c == '_' || c == '$') = true) (rest : List Char) :
    grammar.Takes mode (nameChar k) (c :: rest) rest (· = []) := by
  simp only [Bool.or_eq_true, beq_iff_eq] at inside
  by_cases member : k.contains c = true
  · exact (Grammar.takes_char member rest).choice _
  have refused : grammar.Refuses mode (.char k) (c :: rest) := fun offset =>
    Grammar.gives_char_failed fun d here => by
      cases here
      exact (Bool.not_eq_true _).mp member
  refine .choice_of_refuses refused ?_
  rcases inside with (inside | rfl) | rfl
  · exact absurd inside member
  · exact (Grammar.takes_text ['_'] rest).choice _
  · exact .choice_of_refuses (refuses_text_of_ne (by decide) rest)
      (Grammar.takes_text ['$'] rest)

theorem refuses_nameChar {k : CharClass}
    (outside : ∀ c ∈ text.head?, (k.contains c || c == '_' || c == '$') = false) :
    grammar.Refuses mode (nameChar k) text := by
  have foreign : ∀ c ∈ text.head?, k.contains c = false ∧ c ≠ '_' ∧ c ≠ '$' := fun c here => by
    have all := outside c here
    simpa [Bool.or_eq_false_iff, and_assoc] using all
  have sign (d : Char) (ne : ∀ c ∈ text.head?, c ≠ d) :
      grammar.Refuses mode (.text [d]) text := by
    refine Grammar.refuses_text fun begins => ?_
    obtain ⟨rest, rfl⟩ := begins
    exact ne d rfl rfl
  refine .choice (fun offset => Grammar.gives_char_failed fun c here => (foreign c here).1) ?_
  exact .choice (sign '_' fun c here => (foreign c here).2.1)
    (sign '$' fun c here => (foreign c here).2.2)

theorem takes_identifierStart {c : Char} (opens : opensName c = true) (rest : List Char) :
    grammar.Takes mode (.rule .identifierStart) (c :: rest) rest (· = []) :=
  .silent (takes_nameChar (k := .letter) opens rest) (by simp [grammar, kind, Kind.isVisible])

theorem takes_identifierPart {c : Char} (continues : continuesName c = true) (rest : List Char) :
    grammar.Takes mode (.rule .identifierPart) (c :: rest) rest (· = []) :=
  .silent (takes_nameChar (k := .alphanumeric) continues rest)
    (by simp [grammar, kind, Kind.isVisible])

theorem refuses_identifierStart (none : leadingName text = []) :
    grammar.Refuses mode (.rule .identifierStart) text := by
  refine .rule (refuses_nameChar (k := .letter) fun c here => ?_)
  obtain ⟨rest, rfl⟩ := List.head?_eq_some_iff.mp here
  refine (Bool.not_eq_true _).mp fun opens => ?_
  rw [leadingName, if_pos (show opensName c = true from opens)] at none
  exact List.cons_ne_nil _ _ none

theorem refuses_identifierPart (ends : EndsName text) :
    grammar.Refuses mode (.rule .identifierPart) text :=
  .rule (refuses_nameChar (k := .alphanumeric) ends)

/-- The parts of a name are taken up to its end. -/
theorem takesMore_identifierPart {cs : List Char} (continues : ∀ d ∈ cs, continuesName d = true)
    (ends : EndsName rest) :
    grammar.TakesMore .atomic (.rule .identifierPart) (cs ++ rest) rest (· = []) := by
  have quiet := Grammar.quiet_of_ne_free (g := grammar) (by decide : Mode.atomic ≠ .free)
  induction cs with
  | nil => exact (refuses_identifierPart ends).takesMore (quiet _)
  | cons c cs ih =>
    obtain ⟨own, others⟩ := List.forall_mem_cons.mp continues
    exact (takes_identifierPart own _).takesMore (quiet _) (ih others) nil_append_nil

/-! ## Names and reserved words -/

/-- What the rules for names spell: the first character of a name and the others. -/
def nameCharacters : Pattern Rule :=
  .seq (.rule .identifierStart) (.many (.rule .identifierPart))

theorem takes_nameCharacters (name : isName w = true) (ends : EndsName rest) :
    grammar.Takes .atomic nameCharacters (w ++ rest) rest (· = []) := by
  cases w with
  | nil => exact nomatch name
  | cons c cs =>
    obtain ⟨opens, continues⟩ := isName_cons.mp name
    have others := (takesMore_identifierPart continues ends).takes_many (by decide)
    exact (takes_identifierStart opens _).seq (quiet_atomic _) others nil_append_nil

/-- The reserved words are names. -/
theorem isName_of_reserved : ∀ w ∈ reservedWords, isName w.toList = true := by decide

/-- **A rule for reserved words takes the longest name if it is one of them.** -/
theorem takes_reserved {first : String} {others : List String}
    (reserved : first :: others ⊆ reservedWords) {m : List Char}
    (mem : String.ofList m ∈ first :: others) (ends : EndsName rest) :
    grammar.Takes .atomic (keyword (oneOfWords first others)) (m ++ rest) rest (· = []) := by
  have taken : grammar.Takes .atomic (oneOfWords first others) (m ++ rest) rest (· = []) := by
    intro offset
    have here : Place.eat? ⟨offset, m ++ rest⟩ (String.ofList m).toList =
        some ⟨offset + Text.byteLength m, rest⟩ := by
      rw [String.toList_ofList]
      exact Place.eat?_eq_some_iff.mpr ⟨rfl, rfl⟩
    exact ⟨[], _, rfl, gives_oneOfWords_of_reserved reserved mem here⟩
  exact taken.seq (quiet_atomic _) (refuses_identifierPart ends).takes_absent nil_append_nil

/-- **A rule for reserved words takes nothing else.**  A word that stands at the place without being
the longest name goes on. -/
theorem refuses_reserved {first : String} {others : List String}
    (reserved : first :: others ⊆ reservedWords)
    (other : String.ofList (leadingName text) ∉ first :: others) :
    grammar.Refuses .atomic (keyword (oneOfWords first others)) text := by
  by_cases found : ∃ w ∈ first :: others, w.toList <+: text
  · obtain ⟨w, mem, rest, rfl⟩ := found
    have goesOn : ¬ EndsName rest := fun ends => by
      rw [leadingName_append (isName_of_reserved w (reserved mem)) ends,
        String.ofList_toList] at other
      exact other mem
    obtain ⟨c, rest, rfl, continues⟩ := exists_of_not_endsName goesOn
    have taken : grammar.Takes .atomic (oneOfWords first others) (w.toList ++ c :: rest) (c :: rest)
        (· = []) := fun offset =>
      ⟨[], _, rfl, gives_oneOfWords_of_reserved reserved mem
        (Place.eat?_eq_some_iff (q := ⟨_, c :: rest⟩).mpr ⟨rfl, rfl⟩)⟩
    exact taken.seq_refuses (quiet_atomic _) (takes_identifierPart continues rest).refuses_absent
  · refine .seq (fun offset => gives_oneOfWords_failed fun w mem => ?_) _
    cases eaten : Place.eat? ⟨offset, text⟩ w.toList with
    | none => rfl
    | some q => exact absurd ⟨w, mem, q.rest, (Place.eat?_eq_some_iff.mp eaten).1.symm⟩ found

/-! ## The rules that spell names -/

/-- The rules that spell names or reserved words. -/
def nameRules : List Rule :=
  [.identifierName, .identifier, .reservedWord, .kwFunction, .kwIf, .kwElse, .kwWhile, .kwFor,
    .kwReturn, .variableKind, .booleanLiteral, .nullLiteral]

/-- The words of a rule for reserved words. -/
def wordsOf : Rule → List String
  | .reservedWord => reservedWords
  | .kwFunction => ["function"]
  | .kwIf => ["if"]
  | .kwElse => ["else"]
  | .kwWhile => ["while"]
  | .kwFor => ["for"]
  | .kwReturn => ["return"]
  | .variableKind => ["var", "let", "const"]
  | .booleanLiteral => ["true", "false"]
  | .nullLiteral => ["null"]
  | _ => []

/-- Whether a rule takes the longest name at a place, which may be empty. -/
def admits : Rule → List Char → Bool
  | .identifierName, m => !m.isEmpty
  | .identifier, m => !m.isEmpty && !reservedWords.contains (String.ofList m)
  | r, m => (wordsOf r).contains (String.ofList m)

/-- The rules for reserved words are choices of some of them. -/
theorem body_eq_keyword {r : Rule} (mem : r ∈ nameRules) (ne : r ≠ .identifierName)
    (ne' : r ≠ .identifier) :
    ∃ first others, grammar.body r = keyword (oneOfWords first others) ∧
      first :: others ⊆ reservedWords ∧
      ∀ m, admits r m = (first :: others).contains (String.ofList m) := by
  simp only [nameRules, List.mem_cons, List.not_mem_nil, or_false] at mem
  rcases mem with rfl | rfl | rfl | rfl | rfl | rfl | rfl | rfl | rfl | rfl | rfl | rfl
  · exact absurd rfl ne
  · exact absurd rfl ne'
  all_goals exact ⟨_, _, rfl, by decide, fun _ => rfl⟩

theorem body_identifier :
    grammar.body .identifier = .seq (.absent (.rule .reservedWord)) nameCharacters :=
  rfl

/-- A rule admits names only. -/
theorem isName_of_admits {r : Rule} (mem : r ∈ nameRules)
    (admitted : admits r (leadingName text) = true) : isName (leadingName text) = true := by
  refine (exists_of_leadingName fun none => ?_).1
  rw [none] at admitted
  have nothing : ∀ r ∈ nameRules, admits r [] = false := by decide
  exact Bool.noConfusion ((nothing r mem).symm.trans admitted)

/-- **A rule that admits the longest name takes it.** -/
theorem takes_nameRule {r : Rule} (mem : r ∈ nameRules) (name : isName w = true)
    (ends : EndsName rest) (admitted : admits r w = true) :
    grammar.Takes .atomic (grammar.body r) (w ++ rest) rest (· = []) := by
  have any : grammar.Takes .atomic nameCharacters (w ++ rest) rest (· = []) :=
    takes_nameCharacters name ends
  by_cases isProperty : r = .identifierName
  · rw [isProperty]
    exact any
  by_cases isIdentifier : r = .identifier
  · rw [isIdentifier, body_identifier]
    rw [isIdentifier, admits, Bool.and_eq_true, Bool.not_eq_true'] at admitted
    have free : String.ofList (leadingName (w ++ rest)) ∉ reservedWords := by
      rw [leadingName_append name ends]
      exact fun reserved => by simp [reserved] at admitted
    have refused : grammar.Refuses .atomic (.rule .reservedWord) (w ++ rest) :=
      .rule (refuses_reserved (List.Subset.refl _) free)
    exact refused.takes_absent.seq (quiet_atomic _) any nil_append_nil
  · obtain ⟨first, others, body, reserved, admits_eq⟩ := body_eq_keyword mem isProperty isIdentifier
    rw [admits_eq, List.contains_iff_mem] at admitted
    rw [body]
    exact takes_reserved reserved admitted ends

/-- **A rule that does not admit the longest name fails.** -/
theorem refuses_nameRule {r : Rule} (mem : r ∈ nameRules)
    (refused : admits r (leadingName text) = false) :
    grammar.Refuses .atomic (grammar.body r) text := by
  by_cases isProperty : r = .identifierName
  · rw [isProperty] at refused ⊢
    have none : leadingName text = [] := by simpa [admits] using refused
    exact (refuses_identifierStart none).seq _
  by_cases isIdentifier : r = .identifier
  · rw [isIdentifier, body_identifier]
    rw [isIdentifier, admits] at refused
    by_cases reserved : String.ofList (leadingName text) ∈ reservedWords
    · have nonempty : leadingName text ≠ [] := fun none => by
        rw [none] at reserved
        exact absurd reserved (by decide)
      obtain ⟨-, rest, split, ends⟩ := exists_of_leadingName nonempty
      have taken : grammar.Takes .atomic (grammar.body .reservedWord) (leadingName text ++ rest)
          rest (· = []) :=
        takes_reserved (List.Subset.refl reservedWords) reserved ends
      rw [← split] at taken
      have word : grammar.Takes .atomic (.rule .reservedWord) text rest (· = []) :=
        .silent taken (by decide)
      exact word.refuses_absent.seq _
    · have none : leadingName text = [] := by simpa [reserved] using refused
      have word : grammar.Refuses .atomic (.rule .reservedWord) text :=
        .rule (refuses_reserved (List.Subset.refl _) reserved)
      exact word.takes_absent.seq_refuses (quiet_atomic _) ((refuses_identifierStart none).seq _)
  · obtain ⟨first, others, body, reserved, admits_eq⟩ := body_eq_keyword mem isProperty isIdentifier
    rw [body]
    refine refuses_reserved reserved fun there => ?_
    rw [admits_eq, List.contains_eq_mem, decide_eq_false_iff_not] at refused
    exact refused there

/-- These rules are words: blanks are not skipped inside them. -/
theorem kind_of_mem_nameRules : ∀ r ∈ nameRules, grammar.kind r = .atomic := by decide

/-- What is taken of a text is taken at every place where the text stands. -/
theorem exists_gives_of_takes {a : Pattern Rule} {taken : List Char} {P : List (Node Rule) → Prop}
    {p : Place} (h : grammar.Takes mode a (taken ++ rest) rest P) (here : p.rest = taken ++ rest) :
    ∃ nodes, P nodes ∧ grammar.Gives mode a p (.matched nodes (p.advance taken rest)) := by
  obtain ⟨offset, text⟩ := p
  obtain rfl : text = taken ++ rest := here
  obtain ⟨nodes, stop, known, gives⟩ := h offset
  obtain ⟨other, reaches⟩ := gives.matches.reaches
  obtain rfl : taken = other := List.append_cancel_right reaches.rest_eq
  obtain rfl : stop = offset + Text.byteLength taken := reaches.offset_eq
  exact ⟨nodes, known, gives⟩

/-- **What a rule for names or reserved words does at a place.**  It takes the longest name if it
admits it, and otherwise it fails. -/
theorem gives_nameRule {r : Rule} (mem : r ∈ nameRules) (mode : Mode) (p : Place) :
    let m := leadingName p.rest
    let q := p.advance m (p.rest.drop m.length)
    grammar.Gives mode (.rule r) p
      (if admits r m then .matched (grammar.nodesOf mode r p.offset q.offset m []) q
      else .failed) := by
  intro m q
  have inner : (grammar.kind r).inner mode = .atomic := by rw [kind_of_mem_nameRules r mem]; rfl
  cases admitted : admits r m with
  | false =>
    refine Grammar.Gives.rule_failed ?_
    rw [inner]
    exact refuses_nameRule mem admitted p.offset
  | true =>
    have name := isName_of_admits mem admitted
    obtain ⟨rest, split, ends⟩ := (exists_of_leadingName (ne_nil_of_isName name)).2
    have after : p.rest.drop m.length = rest :=
      (congrArg (List.drop m.length) split).trans List.drop_left
    have taken : p.upTo q.offset = m := p.upTo_advance m _ (by rw [after]; exact split)
    obtain ⟨_, rfl, gives⟩ := exists_gives_of_takes (takes_nameRule mem name ends admitted) split
    rw [← inner, ← after] at gives
    have node := gives.rule
    rwa [taken] at node

/-! ## The texts of nodes -/

variable {p q : Place} {nodes : List (Node Rule)}

theorem matches_nameChar {k : CharClass} (h : grammar.Matches mode (nameChar k) p nodes q) :
    ∃ c, (k.contains c || c == '_' || c == '$') = true ∧ p.Reaches [c] q := by
  cases h with
  | choiceFirst here =>
    cases here with
    | char inside eaten => exact ⟨_, by simp [inside], eaten⟩
  | choiceSecond there =>
    cases there with
    | choiceFirst here =>
      cases here with
      | text eaten => exact ⟨'_', by simp, eaten⟩
    | choiceSecond here =>
      cases here with
      | text eaten => exact ⟨'$', by simp, eaten⟩

/-- The rule for the characters of names takes a name that does not go on. -/
theorem matches_nameCharacters (h : grammar.Matches .atomic nameCharacters p nodes q) :
    ∃ w, isName w = true ∧ p.Reaches w q ∧ EndsName q.rest := by
  have tight : Mode.atomic ≠ .free := by decide
  obtain ⟨_, p₁, _, first, others, -⟩ := h.seq_tight tight
  obtain ⟨c, opens, here⟩ : ∃ c, opensName c = true ∧ p.Reaches [c] p₁ := by
    cases first with
    | rule body => exact matches_nameChar body
  obtain ⟨cs, continues, further, ends⟩ : ∃ cs, (∀ d ∈ cs, continuesName d = true) ∧
      p₁.Reaches cs q ∧ EndsName q.rest := by
    refine Grammar.Matches.many_induction
      (P := fun p _ q => ∃ cs, (∀ d ∈ cs, continuesName d = true) ∧ p.Reaches cs q ∧
        EndsName q.rest) tight ?_ ?_ others
    · intro p failed
      refine ⟨[], List.forall_mem_nil _, .refl p, ?_⟩
      by_cases ends : EndsName p.rest
      · exact ends
      obtain ⟨d, rest, split, continues⟩ := exists_of_not_endsName ends
      have taken : grammar.Takes .atomic (.rule .identifierPart) (d :: rest) rest (· = []) :=
        takes_identifierPart continues rest
      obtain ⟨_, _, _, gives⟩ := taken p.offset
      rw [← split] at gives
      exact nomatch gives.unique failed
    · rintro p xs p₁ ys q item ⟨cs, continues, further, ends⟩
      cases item with
      | rule body =>
        obtain ⟨d, own, here⟩ := matches_nameChar body
        exact ⟨d :: cs, List.forall_mem_cons.mpr ⟨own, continues⟩, here.trans further, ends⟩
  exact ⟨c :: cs, isName_cons.mpr ⟨opens, continues⟩, here.trans further, ends⟩

/-- **The text of a node for a name is a name that its rule admits.** -/
theorem name_of_grown {source : List Char} {node : Node Rule} (grown : node.Grown grammar source)
    (mem : node.rule ∈ [Rule.identifier, .identifierName]) :
    isName node.text = true ∧ admits node.rule node.text = true := by
  cases grown with
  | @mk mode r p q children start kept body each =>
    simp only [Node.rule, List.mem_cons, List.not_mem_nil, or_false] at mem
    rcases mem with rfl | rfl
    · obtain ⟨_, p₁, _, absent, name, -⟩ :=
        Grammar.Matches.seq_tight (by decide : Mode.atomic ≠ .free) body
      cases absent with
      | absent fails =>
        obtain ⟨w, isName, reaches, ends⟩ := matches_nameCharacters name
        rw [Node.text, reaches.upTo_eq]
        refine ⟨isName, ?_⟩
        have free : reservedWords.contains (String.ofList w) = false := by
          refine (Bool.not_eq_true _).mp fun reserved => ?_
          have word : grammar.Takes .atomic (.rule .reservedWord) (w ++ q.rest) q.rest (· = []) :=
            .silent (takes_nameRule (by decide) isName ends reserved) (by decide)
          obtain ⟨_, -, gives⟩ := exists_gives_of_takes word reaches.rest_eq
          exact absurd (gives.unique fails) (by simp)
        rw [Node.rule, admits, List.isEmpty_eq_false_iff.mpr (ne_nil_of_isName isName), free]
        rfl
    · obtain ⟨w, isName, reaches, -⟩ := matches_nameCharacters body
      rw [Node.text, reaches.upTo_eq]
      refine ⟨isName, ?_⟩
      rw [Node.rule, admits, List.isEmpty_eq_false_iff.mpr (ne_nil_of_isName isName)]
      rfl

end Language

end ScriptTrace
