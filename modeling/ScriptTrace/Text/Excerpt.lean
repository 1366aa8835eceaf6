import ScriptTrace.Text.Position

/-!
# Source excerpts

A report about a place in a text: its line and column, the line itself, a mark under the place and
a message.

     --> 1:4
     |
    1 | 1 +
     |    ^---
     |
     = message

A report about a stretch of text shows its first line and, when it ends on another line, its last
one, with a mark that runs from column to column.

A line break has no shape of its own.  It is dropped from a shown line, unless the report is about
the break itself: then it is shown by its control picture.

* `pointReport`: the report about an offset.
* `stretchReport`: the report about the text between two offsets.
-/

namespace ScriptTrace.Text

/-- A carriage return or a line feed. -/
def isBreak (c : Char) : Bool :=
  c == '\r' || c == '\n'

/-- A line with its breaks shown as control pictures. -/
def withBreaksShown (line : List Char) : List Char :=
  line.map fun c => if c = '\r' then '␍' else if c = '\n' then '␊' else c

/-- A line with its breaks left out. -/
def withoutBreaks (line : List Char) : List Char :=
  line.filter fun c => !isBreak c

/-- The blank text that stands under the first columns of a shown line: a tab under a tab, so that
the mark lines up, and a space under any other character. -/
def padding (columns : Nat) (line : List Char) : List Char :=
  (line.take columns).map fun c => if c = '\t' then '\t' else ' '

/-- A number, moved to the right end of a field. -/
def alignRight (width : Nat) (n : Nat) : String :=
  let digits := toString n
  String.ofList (List.replicate (width - digits.length) ' ') ++ digits

/-- The frame of a report: head, numbered lines, mark and message, under a margin of `width`
columns.  A numbered line with no number is a continuation. -/
def frameReport (width line column : Nat) (shown : List (Option Nat × List Char))
    (mark : List Char) (message : String) : String :=
  let margin := String.ofList (List.replicate width ' ')
  let numbered := shown.map fun (number, text) =>
    match number with
    | some n => alignRight width n ++ " | " ++ String.ofList text
    | none => margin ++ " | " ++ String.ofList text
  "\n".intercalate <|
    [margin ++ "--> " ++ toString line ++ ":" ++ toString column, margin ++ " |"] ++ numbered ++
      [margin ++ " | " ++ String.ofList mark, margin ++ " |", margin ++ " = " ++ message]

/-- The report about an offset. -/
def pointReport (source : List Char) (offset : Nat) (message : String) : String :=
  let (line, column) := lineColumn source offset
  let whole := lineAround source offset
  let atBreak := (dropBytes offset source).head?.any isBreak
  let shown := if atBreak then withBreaksShown whole else withoutBreaks whole
  frameReport (toString line).length line column [(some line, shown)]
    (padding (column - 1) shown ++ ['^', '-', '-', '-']) message

/-- The mark from one column to another.  When the stretch ends further to the left than it
begins, the mark runs from the column before its end to the column after its beginning. -/
def stretchMark (shown : List Char) (startColumn stopColumn : Nat) : List Char :=
  let (x, y) := if startColumn > stopColumn then (stopColumn - 1, startColumn + 1)
    else (startColumn, stopColumn)
  let tail := if y - x > 1 then List.replicate (y - x - 2) '-' ++ ['^'] else []
  padding (x - 1) shown ++ '^' :: tail

/-- The report about the text between two offsets, which is not empty. -/
def stretchReport (source : List Char) (start stop : Nat) (message : String) : String :=
  let (line, column) := lineColumn source start
  let before := takeBytes stop source
  let lastCharacter := before.getLast?
  let beforeLast := before.dropLast
  -- A stretch that ends after a line feed is taken to end on the line of that feed.
  let (stopLine, stopColumn) := match lineColumn source stop with
    | (_, 1) =>
      let (l, c) := advance 1 1 beforeLast
      (l, c + 1)
    | place => place
  let firstShown := lineAround source start
  let startOfLine := byteLength (takeBytes start source) -
    byteLength (lastLine (takeBytes start source))
  let lastOffset := byteLength beforeLast
  let continues := startOfLine + byteLength firstShown ≤ lastOffset
  let endsAtBreak := (dropBytes start before).length > 1 && lastCharacter.any isBreak
  let first := if endsAtBreak then withBreaksShown firstShown else withoutBreaks firstShown
  let lastLineText := lineAround source lastOffset
  let last := if endsAtBreak then lastLineText else withBreaksShown lastLineText
  let gap := if stopLine - line > 1 then [(none, "...".toList)] else []
  let more := if continues then gap ++ [(some stopLine, last)] else []
  frameReport (toString (max line stopLine)).length line column ((some line, first) :: more)
    (stretchMark first column stopColumn) message

end ScriptTrace.Text
