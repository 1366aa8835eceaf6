import ScriptTrace.Ast.Build
import ScriptTrace.Proofs.SkippedText

/-!
# String literals and the strings they spell

Two procedures walk over a string literal, and neither knows of the other.  The grammar looks for
the closing quotation mark and takes two characters at once after a backslash.  Later the backslashes
are taken away from what stood between the marks.  Here they are shown to agree on where each escape
ends.

Both follow the same three cases: the end, a plain character, and a backslash with a character after
it (`Text.Quotable`).  So what the grammar takes never ends in the middle of an escape, and each
escape costs one character.  The other way round, every string can be written between either kind of
quotation mark (`escapeIn`), and the grammar closes the literal exactly at the mark that was put
there, whatever follows.

* `Text.escapes`, `Text.dangles`: the escapes of a text, and whether a backslash is left over.
* `read_stringLiteral`: what the rule for string literals takes, and its node.
* `stringLiteral_spells`: every string has a literal of either kind, and a literal decodes without
  a backslash left over.
-/

namespace ScriptTrace

open Peg

namespace Text

/-- The number of escapes that are taken away from a text. -/
def escapes : List Char → Nat
  | [] | ['\\'] => 0
  | '\\' :: _ :: cs => escapes cs + 1
  | _ :: cs => escapes cs

/-- Whether a backslash is met at the end of a text, with nothing left for it to escape. -/
def dangles : List Char → Bool
  | [] => false
  | ['\\'] => true
  | '\\' :: _ :: cs => dangles cs
  | _ :: cs => dangles cs

theorem escapes_cons_of_ne {c : Char} (ne : c ≠ '\\') (cs : List Char) :
    escapes (c :: cs) = escapes cs := by
  rw [escapes]
  · rintro rfl
    exact absurd rfl ne
  · exact fun _ _ same => absurd same ne

theorem dangles_cons_of_ne {c : Char} (ne : c ≠ '\\') (cs : List Char) :
    dangles (c :: cs) = dangles cs := by
  rw [dangles]
  · rintro rfl
    exact absurd rfl ne
  · exact fun _ _ same => absurd same ne

namespace Quotable

variable {quote : Char} {text : List Char}

theorem dangles_eq_false (quotable : Quotable quote text) : dangles text = false := by
  induction quotable with
  | nil => rfl
  | plain allowed _ ih => rw [dangles_cons_of_ne (ne_backslash_of_notMem_specials allowed), ih]
  | escaped _ _ ih => rw [dangles, ih]

/-- An escape takes up one character more than it spells. -/
theorem length_unescape (quotable : Quotable quote text) :
    (unescape text).length + escapes text = text.length := by
  induction quotable with
  | nil => rfl
  | plain allowed _ ih =>
    have ne := ne_backslash_of_notMem_specials allowed
    rw [unescape_cons_of_ne ne, escapes_cons_of_ne ne, List.length_cons, List.length_cons]
    omega
  | escaped _ _ ih =>
    rw [unescape, escapes, List.length_cons, List.length_cons, List.length_cons]
    omega

end Quotable

end Text

namespace Language

/-- A node of a string literal that is written between two quotation marks of a kind. -/
def IsQuoted (quote : Char) (raw : List Char) (node : Node Rule) : Prop :=
  ∃ a b c d, node =
    .mk .stringLiteral a b (quote :: (raw ++ [quote])) [.mk (charactersRule quote) c d raw []]

/-- **What the rule for string literals takes is a text between two quotation marks.** -/
theorem read_stringLiteral {source : List Char} {nodes : List (Node Rule)} {q : Place}
    (h : (grammar.read .stringLiteral source).1 = .matched nodes q) :
    ∃ quote raw node, (quote = '"' ∨ quote = '\'') ∧ Text.Quotable quote raw ∧
      source = quote :: (raw ++ quote :: q.rest) ∧ nodes = [node] ∧ IsQuoted quote raw node := by
  obtain ⟨quote, raw, isQuote, quotable, reaches, a, b, rfl⟩ :=
    quoted_of_matches (Grammar.matches_of_read h)
  refine ⟨quote, raw, _, isQuote, quotable, ?_, rfl, 0, q.offset, a, b, ?_⟩
  · have whole : source = quote :: (raw ++ [quote]) ++ q.rest := reaches.rest_eq
    rw [whole, List.cons_append, List.append_assoc, List.singleton_append]
  · rw [reaches.upTo_eq]

/-- A text between two quotation marks is taken, and nothing of what follows. -/
theorem exists_read_stringLiteral {quote : Char} (isQuote : quote = '"' ∨ quote = '\'')
    {raw : List Char} (quotable : Text.Quotable quote raw) (rest : List Char) :
    ∃ node stop, IsQuoted quote raw node ∧
      (grammar.read .stringLiteral (quote :: (raw ++ quote :: rest))).1 =
        .matched [node] ⟨stop, rest⟩ := by
  obtain ⟨nodes, stop, known, gives⟩ := takes_stringLiteral isQuote quotable rest 0
  obtain ⟨-, read⟩ := ranked.gives_read .stringLiteral (quote :: (raw ++ quote :: rest))
  have outcome := read.unique gives
  obtain ⟨quote', raw', node, -, -, whole, rfl, quoted⟩ := read_stringLiteral outcome
  -- the marks and the text between them are those that were put there
  obtain ⟨rfl, inside⟩ := List.cons.inj whole
  rw [List.append_cons, List.append_cons raw', List.append_left_inj] at inside
  obtain rfl := List.append_cancel_right inside
  exact ⟨node, stop, quoted, outcome⟩

theorem buildString_of_isQuoted {quote : Char} {raw : List Char} {node : Node Rule}
    (quoted : IsQuoted quote raw node) : buildString node = String.ofList (unescape raw) := by
  obtain ⟨a, b, c, d, rfl⟩ := quoted
  rfl

/-- **Every string has a literal, and every literal spells a string.**

Let a string be written between two quotation marks of either kind, with a backslash before each
such mark, each backslash and each end of a line in it, and let any text follow.  The rule for
string literals takes the marks and what is between them and leaves the text that follows, and the
node that comes out spells the string.

Let the rule take a string literal at the beginning of any text.  Then its node has been written
between two quotation marks.  No backslash is left over when the escapes between the marks are taken
away, and the string that is spelled has one character less for each escape. -/
theorem stringLiteral_spells :
    (∀ quote, (quote = '"' ∨ quote = '\'') → ∀ (s : String) (rest : List Char),
      ∃ node stop,
        (grammar.read .stringLiteral (quote :: (escapeIn quote s.toList ++ quote :: rest))).1 =
          .matched [node] ⟨stop, rest⟩ ∧
        node.text = quote :: (escapeIn quote s.toList ++ [quote]) ∧ buildString node = s) ∧
    ∀ source nodes q, (grammar.read .stringLiteral source).1 = .matched nodes q →
      ∃ quote raw node, (quote = '"' ∨ quote = '\'') ∧ source = quote :: (raw ++ quote :: q.rest) ∧
        nodes = [node] ∧ IsQuoted quote raw node ∧ Text.dangles raw = false ∧
        (buildString node).length + Text.escapes raw = raw.length := by
  constructor
  · intro quote isQuote s rest
    obtain ⟨node, stop, quoted, outcome⟩ :=
      exists_read_stringLiteral isQuote (quotable_escapeIn quote s.toList) rest
    refine ⟨node, stop, outcome, ?_, ?_⟩
    · obtain ⟨a, b, c, d, rfl⟩ := quoted
      rfl
    · rw [buildString_of_isQuoted quoted, unescape_escapeIn isQuote, String.ofList_toList]
  · intro source nodes q outcome
    obtain ⟨quote, raw, node, isQuote, quotable, whole, only, quoted⟩ := read_stringLiteral outcome
    refine ⟨quote, raw, node, isQuote, whole, only, quoted, quotable.dangles_eq_false, ?_⟩
    rw [buildString_of_isQuoted quoted, String.length_ofList, quotable.length_unescape]

/-- A string with a quotation mark of each kind, two backslashes at its end and a line break in it,
between quotation marks that are followed by another one. -/
theorem stringLiteral_spells_backslashes :
    ∃ node stop,
      (grammar.read .stringLiteral
        "'\"\\'\\\n\\\\\\\\''".toList).1 = .matched [node] ⟨stop, ['\'']⟩ ∧
      buildString node = "\"'\n\\\\" ∧
      ∃ quote raw node', (quote = '"' ∨ quote = '\'') ∧
        "'\"\\'\\\n\\\\\\\\''".toList = quote :: (raw ++ quote :: ['\'']) ∧
        [node] = [node'] ∧ IsQuoted quote raw node' ∧ Text.dangles raw = false ∧
        (buildString node').length + Text.escapes raw = raw.length := by
  obtain ⟨written, spelled⟩ := stringLiteral_spells
  obtain ⟨node, stop, outcome, -, text⟩ := written '\'' (.inr rfl) "\"'\n\\\\" ['\'']
  exact ⟨node, stop, outcome, text, spelled _ _ _ outcome⟩

end Language

end ScriptTrace
