import ScriptTrace.Language.Table
import ScriptTrace.Number.Numeral
import ScriptTrace.Proofs.Matching

/-!
# Every numeral spells a number

The grammar says what a numeral looks like, and `Number.ofNumeral?` reads it with no knowledge of
the grammar.  This file shows that the reader accepts whatever the pattern of the rule takes: the
hexadecimal form, and the two decimal forms, with digits before the point or after it.

* `Number.ofHexDigits?_isSome`, `Number.ofDecimalNumeral?_isSome`: the readers of the two forms.
* `Number.ofNumeral?_isSome_of_spells`: every text that the pattern of a numeral takes.
-/

namespace ScriptTrace

open Peg Pattern

/-! ## Texts without blanks -/

namespace Peg.Pattern

variable {ρ : Type} {a b : Pattern ρ} {k : CharClass} {taken : List Char}

theorem exists_of_spells_seq (h : (Pattern.seq a b).Spells .atomic taken) :
    ∃ t u, a.Spells .atomic t ∧ b.Spells .atomic u ∧ taken = t ++ u :=
  h.resolve_left (by decide)

theorem forall_mem_of_spells_many_char
    (h : (Pattern.many (.char k : Pattern ρ)).Spells .atomic taken) :
    ∀ c ∈ taken, k.contains c = true := by
  obtain ⟨parts, each, rfl⟩ := h.resolve_left (by decide)
  intro c mem
  obtain ⟨part, hpart, inside⟩ := List.mem_flatten.mp mem
  obtain ⟨d, hd, rfl⟩ := each part hpart
  rwa [List.mem_singleton.mp inside]

theorem forall_mem_of_spells_oneOrMore_char
    (h : (oneOrMore (.char k : Pattern ρ)).Spells .atomic taken) :
    taken ≠ [] ∧ ∀ c ∈ taken, k.contains c = true := by
  obtain ⟨t, u, ⟨c, hc, rfl⟩, more, rfl⟩ := exists_of_spells_seq h
  exact ⟨List.cons_ne_nil _ _, List.forall_mem_cons.mpr ⟨hc, forall_mem_of_spells_many_char more⟩⟩

end Peg.Pattern

/-! ## Hexadecimal numerals -/

theorem hexValue?_isSome {c : Char} (h : CharClass.hexDigit.contains c = true) :
    (hexValue? c).isSome = true := by
  rw [hexValue?]
  have cases : ('0' ≤ c ∧ c ≤ '9') ∨ ('a' ≤ c ∧ c ≤ 'f') ∨ ('A' ≤ c ∧ c ≤ 'F') := by
    simpa [CharClass.contains, Char.isDigit, Char.le_def, or_assoc] using h
  split
  · rfl
  · split
    · rfl
    · split
      · rfl
      · simp_all

namespace Number

theorem exists_mapM_hexValue? {cs : List Char}
    (all : ∀ c ∈ cs, CharClass.hexDigit.contains c = true) :
    ∃ ds, cs.mapM hexValue? = some ds ∧ ds.length = cs.length := by
  induction cs with
  | nil => exact ⟨[], rfl, rfl⟩
  | cons c cs ih =>
    obtain ⟨here, further⟩ := List.forall_mem_cons.mp all
    obtain ⟨d, hd⟩ := Option.isSome_iff_exists.mp (hexValue?_isSome here)
    obtain ⟨ds, hds, length⟩ := ih further
    refine ⟨d :: ds, ?_, congrArg (· + 1) length⟩
    rw [List.mapM_cons, hd, hds]
    rfl

theorem ofHexDigits?_isSome {cs : List Char} (ne : cs ≠ [])
    (all : ∀ c ∈ cs, CharClass.hexDigit.contains c = true) : (ofHexDigits? cs).isSome = true := by
  obtain ⟨ds, hds, length⟩ := exists_mapM_hexValue? all
  have some_digit : ds.isEmpty = false := by
    rw [List.isEmpty_eq_false_iff, ← List.length_pos_iff, length]
    exact List.length_pos_iff.mpr ne
  rw [ofHexDigits?, hds]
  show (if ds.isEmpty then none else some (ds.foldl pushHexDigit zero)).isSome = true
  rw [some_digit]
  rfl

/-! ## Decimal numerals -/

theorem digits?_isSome {ds : List Char} (ne : ds ≠ [])
    (all : ∀ c ∈ ds, c.isDigit = true) : (digits? ds).isSome = true := by
  have digits : (!ds.isEmpty && ds.all Char.isDigit) = true := by
    rw [Bool.and_eq_true, Bool.not_eq_true', List.isEmpty_eq_false_iff, List.all_eq_true]
    exact ⟨ne, all⟩
  rw [digits?, if_pos digits]
  rfl

/-- An exponent is an optional sign and one or more digits. -/
theorem exponentOf?_isSome {sign ds : List Char} (hs : sign = [] ∨ sign = ['+'] ∨ sign = ['-'])
    (ne : ds ≠ []) (all : ∀ c ∈ ds, c.isDigit = true) :
    (exponentOf? (sign ++ ds)).isSome = true := by
  obtain ⟨n, number⟩ := Option.isSome_iff_exists.mp (digits?_isSome ne all)
  obtain rfl | rfl | rfl := hs
  · rw [List.nil_append, exponentOf?]
    · rw [number]
      rfl
    -- digits do not begin with a sign
    all_goals
      rintro more rfl
      exact absurd (List.forall_mem_cons.mp all).1 (by decide)
  · rw [List.singleton_append, exponentOf?, number]
    rfl
  · rw [List.singleton_append, exponentOf?, number]
    rfl

/-- A text that does not begin with a digit. -/
def Undigited (cs : List Char) : Prop :=
  ∀ c ∈ cs.head?, c.isDigit = false

theorem takeWhile_isDigit_append {ds rest : List Char} (all : ∀ c ∈ ds, c.isDigit = true)
    (stops : Undigited rest) : (ds ++ rest).takeWhile Char.isDigit = ds := by
  rw [List.takeWhile_append_of_pos all]
  cases rest with
  | nil => exact List.append_nil ds
  | cons c rest =>
    rw [List.takeWhile_cons_of_neg, List.append_nil]
    rw [stops c rfl]
    decide

theorem dropWhile_isDigit_append {ds rest : List Char} (all : ∀ c ∈ ds, c.isDigit = true)
    (stops : Undigited rest) : (ds ++ rest).dropWhile Char.isDigit = rest := by
  rw [List.dropWhile_append_of_pos all]
  cases rest with
  | nil => rfl
  | cons c rest =>
    rw [List.dropWhile_cons_of_neg]
    rw [stops c rfl]
    decide

/-- What may follow the digits of a decimal numeral: nothing, or a mark and an exponent. -/
def IsExponent (cs : List Char) : Prop :=
  cs = [] ∨ ∃ mark more, (mark = 'e' ∨ mark = 'E') ∧ (exponentOf? more).isSome = true ∧
    cs = mark :: more

theorem IsExponent.undigited {cs : List Char} (h : IsExponent cs) : Undigited cs := by
  obtain rfl | ⟨mark, more, rfl | rfl, -, rfl⟩ := h
  · exact fun c mem => nomatch mem
  · rintro c ⟨⟩
    rfl
  · rintro c ⟨⟩
    rfl

/-- Digits with an optional exponent. -/
theorem ofDecimalNumeral?_isSome_of_whole {whole exponent : List Char} (ne : whole ≠ [])
    (all : ∀ c ∈ whole, c.isDigit = true) (h : IsExponent exponent) :
    (ofDecimalNumeral? (whole ++ exponent)).isSome = true := by
  rw [ofDecimalNumeral?, takeWhile_isDigit_append all h.undigited,
    dropWhile_isDigit_append all h.undigited]
  obtain rfl | ⟨mark, more, rfl | rfl, he, rfl⟩ := h
  · simp [ne]
  all_goals
    obtain ⟨n, he⟩ := Option.isSome_iff_exists.mp he
    simp [ne, he]

/-- Digits with a point before, among or after them, and an optional exponent. -/
theorem ofDecimalNumeral?_isSome_of_point {whole part exponent : List Char}
    (ne : whole ≠ [] ∨ part ≠ []) (hw : ∀ c ∈ whole, c.isDigit = true)
    (hp : ∀ c ∈ part, c.isDigit = true) (h : IsExponent exponent) :
    (ofDecimalNumeral? (whole ++ '.' :: (part ++ exponent))).isSome = true := by
  have stops : Undigited ('.' :: (part ++ exponent)) := by
    rintro c ⟨⟩
    rfl
  rw [ofDecimalNumeral?, takeWhile_isDigit_append hw stops, dropWhile_isDigit_append hw stops]
  simp only [takeWhile_isDigit_append hp h.undigited, dropWhile_isDigit_append hp h.undigited]
  have digits : (whole.isEmpty && part.isEmpty) = false := by
    rcases ne with ne | ne <;> simp [ne]
  obtain rfl | ⟨mark, more, rfl | rfl, he, rfl⟩ := h
  · simp [digits]
  all_goals
    obtain ⟨n, he⟩ := Option.isSome_iff_exists.mp he
    simp [digits, he]

/-- What is read as a decimal numeral does not begin like a hexadecimal one. -/
theorem ofNumeral?_isSome_of_decimal {cs : List Char} (h : (ofDecimalNumeral? cs).isSome = true) :
    (ofNumeral? cs).isSome = true := by
  unfold ofNumeral?
  split
  · simp [ofDecimalNumeral?, show Char.isDigit '0' = true from rfl,
      show Char.isDigit 'x' = false from rfl] at h
  · simp [ofDecimalNumeral?, show Char.isDigit '0' = true from rfl,
      show Char.isDigit 'X' = false from rfl] at h
  · exact h

/-! ## The pattern of a numeral -/

/-- The pattern of an exponent takes nothing, or a mark with an optional sign and digits. -/
theorem isExponent_of_spells {taken : List Char}
    (h : (Pattern.optional (inOrder (.choice (Language.word "e") (Language.word "E"))
      [.optional (.choice (Language.word "+") (Language.word "-")),
        oneOrMore (.char .digit)])).Spells .atomic taken) : IsExponent taken := by
  rcases h with h | rfl
  · obtain ⟨mark, more, hmark, hmore, rfl⟩ := exists_of_spells_seq h
    obtain ⟨sign, ds, hsign, hds, rfl⟩ := exists_of_spells_seq hmore
    obtain ⟨ne, all⟩ := forall_mem_of_spells_oneOrMore_char hds
    have signs : sign = [] ∨ sign = ['+'] ∨ sign = ['-'] := hsign.symm
    have reads := exponentOf?_isSome signs ne all
    rcases hmark with rfl | rfl
    · exact Or.inr ⟨'e', sign ++ ds, Or.inl rfl, reads, rfl⟩
    · exact Or.inr ⟨'E', sign ++ ds, Or.inr rfl, reads, rfl⟩
  · exact Or.inl rfl

/-- **Every text that the pattern of a numeral takes spells a number.** -/
theorem ofNumeral?_isSome_of_spells {taken : List Char}
    (h : (Language.pattern .numericLiteral).Spells .atomic taken) :
    (ofNumeral? taken).isSome = true := by
  obtain ⟨t, _, number, rfl, rfl⟩ := exists_of_spells_seq h
  rw [List.append_nil]
  rcases number with hex | decimal
  · obtain ⟨mark, ds, hmark, hds, rfl⟩ := exists_of_spells_seq hex
    obtain ⟨ne, all⟩ := forall_mem_of_spells_oneOrMore_char hds
    rcases hmark with rfl | rfl
    · exact ofHexDigits?_isSome ne all
    · exact ofHexDigits?_isSome ne all
  · obtain ⟨mantissa, exponent, hmantissa, hexponent, rfl⟩ := exists_of_spells_seq decimal
    have hexponent := isExponent_of_spells hexponent
    refine ofNumeral?_isSome_of_decimal ?_
    rcases hmantissa with whole | fraction
    · obtain ⟨whole, point, hwhole, hpoint, rfl⟩ := exists_of_spells_seq whole
      obtain ⟨ne, all⟩ := forall_mem_of_spells_oneOrMore_char hwhole
      rcases hpoint with hpoint | rfl
      · obtain ⟨_, part, rfl, hpart, rfl⟩ := exists_of_spells_seq hpoint
        have digits := forall_mem_of_spells_many_char hpart
        rw [List.append_assoc]
        exact ofDecimalNumeral?_isSome_of_point (Or.inl ne) all digits hexponent
      · rw [List.append_nil]
        exact ofDecimalNumeral?_isSome_of_whole ne all hexponent
    · obtain ⟨_, part, rfl, hpart, rfl⟩ := exists_of_spells_seq fraction
      obtain ⟨ne, digits⟩ := forall_mem_of_spells_oneOrMore_char hpart
      exact ofDecimalNumeral?_isSome_of_point (Or.inr ne) (List.forall_mem_nil _) digits hexponent

end Number

end ScriptTrace
