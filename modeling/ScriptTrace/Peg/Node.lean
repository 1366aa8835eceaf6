import ScriptTrace.Text.Position

/-!
# Matched trees

The tree of a match has a node for every rule that matched and leaves nodes: the rule, the offsets
between which it matched, the text that it took, and the nodes of the rules it called.

A place is what is left of the text, with the offset at which it begins.

* `Place`: a place in a text.
* `Node`: the tree of a match.
-/

namespace ScriptTrace.Peg

/-- A place in a text: the offset in bytes, and the characters from there on. -/
structure Place where
  offset : Nat
  rest : List Char
  deriving DecidableEq, Repr

namespace Place

/-- The place after a character. -/
def after (offset : Nat) (c : Char) (rest : List Char) : Place :=
  ⟨offset + c.utf8Size, rest⟩

/-- The place after given characters, if the text goes on with them. -/
def eat? (p : Place) : List Char → Option Place
  | [] => some p
  | c :: cs =>
    match p.rest with
    | [] => none
    | d :: rest => if c = d then (Place.after p.offset d rest).eat? cs else none

/-- The text from a place to an offset. -/
def upTo (p : Place) (stop : Nat) : List Char :=
  Text.takeBytes (stop - p.offset) p.rest

/-- The place after some characters of a text that goes on with them. -/
def advance (p : Place) (taken rest : List Char) : Place :=
  ⟨p.offset + Text.byteLength taken, rest⟩

/-- Given characters are eaten exactly where the text goes on with them. -/
theorem eat?_eq_some_iff {p q : Place} {chars : List Char} :
    p.eat? chars = some q ↔
      p.rest = chars ++ q.rest ∧ q.offset = p.offset + Text.byteLength chars := by
  induction chars generalizing p with
  | nil =>
    obtain ⟨o, r⟩ := p
    obtain ⟨o', r'⟩ := q
    simp only [eat?, Option.some.injEq, mk.injEq, List.nil_append, Text.byteLength_nil,
      Nat.add_zero]
    constructor
    · rintro ⟨h₁, h₂⟩
      exact ⟨h₂, h₁.symm⟩
    · rintro ⟨h₁, h₂⟩
      exact ⟨h₂.symm, h₁⟩
  | cons c cs ih =>
    obtain ⟨o, r⟩ := p
    cases r with
    | nil => simp [eat?]
    | cons d r =>
      by_cases h : c = d
      · subst h
        simp only [eat?, if_true, ih, after, List.cons_append, List.cons.injEq, true_and,
          Text.byteLength_cons, Nat.add_assoc]
      · have h' : ¬ d = c := fun hd => h hd.symm
        simp [eat?, h, h']

/-- The text between a place and the place after some characters is those characters. -/
theorem upTo_advance (p : Place) (taken rest : List Char) (h : p.rest = taken ++ rest) :
    p.upTo (p.advance taken rest).offset = taken := by
  rw [upTo, advance, h, Nat.add_sub_cancel_left, Text.takeBytes_byteLength_append]

end Place

/-- The tree of a match. -/
inductive Node (ρ : Type) where
  | mk (rule : ρ) (start stop : Nat) (text : List Char) (children : List (Node ρ))

namespace Node

variable {ρ : Type}

/-- The rule that matched. -/
def rule : Node ρ → ρ
  | mk r _ _ _ _ => r

/-- The offset at which the match begins. -/
def start : Node ρ → Nat
  | mk _ a _ _ _ => a

/-- The offset at which the match ends. -/
def stop : Node ρ → Nat
  | mk _ _ b _ _ => b

/-- The text that was taken. -/
def text : Node ρ → List Char
  | mk _ _ _ t _ => t

/-- The nodes of the rules that were called. -/
def children : Node ρ → List (Node ρ)
  | mk _ _ _ _ ks => ks

end Node

end ScriptTrace.Peg
