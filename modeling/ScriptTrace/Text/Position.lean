/-!
# Positions in a text

An offset counts the bytes of the UTF-8 form; a line and a column count from one, and a column
counts characters.  A line feed ends a line, with the carriage return before it if there is one; a
carriage return that stands alone is an ordinary character.

* `byteLength`: the length of a text in bytes.
* `takeBytes`, `dropBytes`: a text cut at an offset.
* `lineColumn`: line and column of an offset.
* `lineAround`: the line in which an offset stands.
-/

namespace ScriptTrace.Text

/-- The length of a text in bytes of its UTF-8 form. -/
def byteLength : List Char → Nat
  | [] => 0
  | c :: cs => c.utf8Size + byteLength cs

@[simp] theorem byteLength_nil : byteLength [] = 0 := rfl

@[simp] theorem byteLength_cons (c : Char) (cs : List Char) :
    byteLength (c :: cs) = c.utf8Size + byteLength cs := rfl

@[simp] theorem byteLength_append (as bs : List Char) :
    byteLength (as ++ bs) = byteLength as + byteLength bs := by
  induction as with
  | nil => rw [List.nil_append, byteLength_nil, Nat.zero_add]
  | cons c as ih => rw [List.cons_append, byteLength_cons, byteLength_cons, ih, Nat.add_assoc]

/-- The characters that begin before an offset. -/
def takeBytes : Nat → List Char → List Char
  | _, [] => []
  | 0, _ :: _ => []
  | n + 1, c :: cs => c :: takeBytes (n + 1 - c.utf8Size) cs

/-- The characters that begin at or after an offset. -/
def dropBytes : Nat → List Char → List Char
  | _, [] => []
  | 0, c :: cs => c :: cs
  | n + 1, c :: cs => dropBytes (n + 1 - c.utf8Size) cs

theorem takeBytes_zero (cs : List Char) : takeBytes 0 cs = [] := by
  cases cs <;> rfl

/-- Cutting at an offset loses no character. -/
theorem takeBytes_append_dropBytes (n : Nat) (cs : List Char) :
    takeBytes n cs ++ dropBytes n cs = cs := by
  induction cs generalizing n with
  | nil => cases n <;> rfl
  | cons c cs ih =>
    cases n with
    | zero => rfl
    | succ n => simp only [takeBytes, dropBytes, List.cons_append, ih]

/-- A text cut at the length of its beginning falls into the beginning and the rest. -/
theorem takeBytes_byteLength_append (as bs : List Char) :
    takeBytes (byteLength as) (as ++ bs) = as := by
  induction as with
  | nil => exact takeBytes_zero bs
  | cons c as ih =>
    have h : byteLength (c :: as) = byteLength as + c.utf8Size := Nat.add_comm _ _
    obtain ⟨n, hn⟩ : ∃ n, byteLength (c :: as) = n + 1 :=
      ⟨byteLength (c :: as) - 1, by have := c.utf8Size_pos; rw [h]; omega⟩
    rw [hn, List.cons_append, takeBytes, ← hn, h, Nat.add_sub_cancel, ih]

theorem dropBytes_byteLength_append (as bs : List Char) :
    dropBytes (byteLength as) (as ++ bs) = bs := by
  have h := takeBytes_append_dropBytes (byteLength as) (as ++ bs)
  rw [takeBytes_byteLength_append] at h
  exact List.append_cancel_left h

/-- Line and column after the characters of a text, which stand before the position. -/
def advance (line column : Nat) : List Char → Nat × Nat
  | [] => (line, column)
  | '\r' :: '\n' :: cs => advance (line + 1) 1 cs
  | '\n' :: cs => advance (line + 1) 1 cs
  | _ :: cs => advance line (column + 1) cs

/-- Line and column of an offset, both counted from one. -/
def lineColumn (source : List Char) (offset : Nat) : Nat × Nat :=
  advance 1 1 (takeBytes offset source)

/-- The first line of a text, with the line feed that ends it. -/
def firstLine : List Char → List Char
  | [] => []
  | c :: cs => if c = '\n' then [c] else c :: firstLine cs

/-- The last line of a text, which is empty after a line feed. -/
def lastLine (cs : List Char) : List Char :=
  (cs.reverse.takeWhile (· ≠ '\n')).reverse

/-- The line in which an offset stands, with the line feed that ends it. -/
def lineAround (source : List Char) (offset : Nat) : List Char :=
  lastLine (takeBytes offset source) ++ firstLine (dropBytes offset source)

end ScriptTrace.Text
