import ScriptTrace.Config.Basic
import ScriptTrace.Number.Numeral

/-!
# Settings files

A settings file is a TOML document.  Three keys can be set, each at most once and each with a value
of its own type, so a document is accepted only if it consists of blank lines, comments and lines of
the form `key = value`, where a value is an integer or a string; tables, dotted keys and all other
values are refused with everything else.

Integers are decimal with an optional sign, or hexadecimal, octal or binary; an underscore may stand
between two digits.  Strings are of four kinds: with or without escapes, on one line or on several.

* `SettingsFile.integer?`: the integers.
* `SettingsFile.string?`: the strings.
* `SettingsFile.entries?`: the keys and values of a document.
* `Config.ofSettings`: the settings that a document gives.
-/

namespace ScriptTrace

/-- Why a settings file gives no settings. -/
inductive ConfigError where
  /-- The text is no document of the accepted form. -/
  | malformed
  /-- The settings are refused. -/
  | invalid (reason : InvalidConfig)
  deriving DecidableEq, Repr

/-- What is said about a settings file. -/
def ConfigError.message : ConfigError → String
  | .malformed => "invalid config: TOML parse error"
  | .invalid reason => "invalid config: " ++ reason.message

namespace SettingsFile

/-- A value of a document. -/
inductive Setting where
  | integer (value : Nat)
  | string (value : String)
  deriving DecidableEq, Repr

/-! ## Characters -/

/-- The blanks inside a line. -/
def isSpace (c : Char) : Bool :=
  c == ' ' || c == '\t'

/-- The controls that may stand in no string and no comment: all but the tab. -/
def isControl (c : Char) : Bool :=
  (c.toNat < 0x20 && c != '\t') || c.toNat == 0x7F

/-- The characters of a key without quotes. -/
def isKeyChar (c : Char) : Bool :=
  c.isAlphanum || c == '_' || c == '-'

/-- The text without the blanks at its beginning. -/
def skipSpaces (cs : List Char) : List Char :=
  cs.dropWhile isSpace

/-- The text after a line break at its beginning. -/
def lineBreak? : List Char → Option (List Char)
  | '\n' :: cs => some cs
  | '\r' :: '\n' :: cs => some cs
  | _ => none

/-! ## Integers -/

/-- The value of digits in a base, most significant first, where a single underscore may stand
between two digits. -/
def digits? (base : Nat) (value : Nat) : List Char → Option Nat
  | [] => some value
  | '_' :: c :: cs => do
    let d ← hexValue? c
    if d < base then digits? base (base * value + d) cs else none
  | c :: cs => do
    let d ← hexValue? c
    if d < base then digits? base (base * value + d) cs else none

/-- The value of one or more digits in a base. -/
def number? (base : Nat) : List Char → Option Nat
  | [] => none
  | '_' :: _ => none
  | cs => digits? base 0 cs

/-- The value of a decimal integer without a sign; only zero begins with a zero. -/
def decimal? : List Char → Option Nat
  | ['0'] => some 0
  | '0' :: _ => none
  | cs => number? 10 cs

/-- The value of an integer that is not below zero and fits into a signed 64-bit word. -/
def integer? (cs : List Char) : Option Nat := do
  let n ← match cs with
    | '0' :: 'x' :: ds => number? 16 ds
    | '0' :: 'o' :: ds => number? 8 ds
    | '0' :: 'b' :: ds => number? 2 ds
    | '+' :: ds => decimal? ds
    | '-' :: ds => (decimal? ds).filter (· == 0)
    | ds => decimal? ds
  if n < Nat.pow 2 63 then some n else none

/-! ## Strings -/

/-- The character with a code point. -/
def charOfCode? (n : Nat) : Option Char :=
  if n.isValidChar then some (Char.ofNat n) else none

/-- The character that an escape sequence without its backslash stands for, and the text after
it. -/
def escape? : List Char → Option (Char × List Char)
  | 'b' :: cs => some ('\x08', cs)
  | 't' :: cs => some ('\t', cs)
  | 'n' :: cs => some ('\n', cs)
  | 'f' :: cs => some ('\x0c', cs)
  | 'r' :: cs => some ('\r', cs)
  | '"' :: cs => some ('"', cs)
  | '\\' :: cs => some ('\\', cs)
  | 'u' :: cs => do
    let code := cs.take 4
    if code.length < 4 then none
    else
      let ds ← code.mapM hexValue?
      return (← charOfCode? (ds.foldl (fun n d => 16 * n + d) 0), cs.drop 4)
  | 'U' :: cs => do
    let code := cs.take 8
    if code.length < 8 then none
    else
      let ds ← code.mapM hexValue?
      return (← charOfCode? (ds.foldl (fun n d => 16 * n + d) 0), cs.drop 8)
  | _ => none

/-- How a string is written. -/
structure Style where
  /-- The quote around it. -/
  quote : Char
  /-- Whether a backslash escapes. -/
  escapes : Bool
  /-- Whether it stands between three quotes and may hold line breaks. -/
  long : Bool

/-- Whether a text begins with a number of equal characters. -/
def startsWith (c : Char) (count : Nat) (cs : List Char) : Bool :=
  cs.take count == List.replicate count c

/-- The text after the end of a string, if the string ends here, with the quotes that still belong
to it: up to two of them may stand before the three that close a long string. -/
def close? (style : Style) (cs : List Char) : Option (List Char × List Char) :=
  if style.long then
    if startsWith style.quote 5 cs then some ([style.quote, style.quote], cs.drop 5)
    else if startsWith style.quote 4 cs then some ([style.quote], cs.drop 4)
    else if startsWith style.quote 3 cs then some ([], cs.drop 3)
    else none
  else if startsWith style.quote 1 cs then some ([], cs.drop 1)
  else none

/-- The text without the blanks and line breaks at its beginning. -/
def skipBlankLines : List Char → List Char
  | ' ' :: cs | '\t' :: cs | '\n' :: cs | '\r' :: '\n' :: cs => skipBlankLines cs
  | cs => cs

/-- The text after a backslash at the end of a line: blanks, the line break, and all blanks and line
breaks that follow. -/
def continuation? (cs : List Char) : Option (List Char) :=
  (lineBreak? (skipSpaces cs)).map skipBlankLines

/-- The characters of a string from its inside on, and the text after it.  Every round takes a
character, so the length of the text bounds their number. -/
def characters? (style : Style) : Nat → List Char → Option (List Char × List Char)
  | 0, _ => none
  | rounds + 1, cs =>
    match close? style cs with
    | some (inside, rest) => some (inside, rest)
    | none => do
      match cs with
      | [] => none
      | '\\' :: more =>
        if style.escapes then
          match continuation? more with
          | some rest => if style.long then characters? style rounds rest else none
          | none =>
            let (c, rest) ← escape? more
            let (text, after) ← characters? style rounds rest
            return (c :: text, after)
        else
          let (text, after) ← characters? style rounds more
          return ('\\' :: text, after)
      | c :: more =>
        match lineBreak? (c :: more) with
        | some rest =>
          if style.long then
            let (text, after) ← characters? style rounds rest
            return ('\n' :: text, after)
          else none
        | none =>
          if isControl c then none
          else
            let (text, after) ← characters? style rounds more
            return (c :: text, after)

/-- A string of a style, after its opening quotes. -/
def inside? (style : Style) (cs : List Char) : Option (String × List Char) := do
  let (text, after) ← characters? style (cs.length + 1) cs
  return (String.ofList text, after)

/-- A long string after its opening quotes: a line break right there does not belong to it. -/
def longInside? (style : Style) (cs : List Char) : Option (String × List Char) :=
  inside? style ((lineBreak? cs).getD cs)

/-- A string on one line, and the text after it. -/
def shortString? : List Char → Option (String × List Char)
  | '"' :: cs => inside? ⟨'"', true, false⟩ cs
  | '\'' :: cs => inside? ⟨'\'', false, false⟩ cs
  | _ => none

/-- A string of any kind, and the text after it. -/
def string? : List Char → Option (String × List Char)
  | '"' :: '"' :: '"' :: cs => longInside? ⟨'"', true, true⟩ cs
  | '\'' :: '\'' :: '\'' :: cs => longInside? ⟨'\'', false, true⟩ cs
  | cs => shortString? cs

/-! ## Documents -/

/-- A key, and the text after it. -/
def key? (cs : List Char) : Option (String × List Char) :=
  match cs.takeWhile isKeyChar with
  | [] => shortString? cs
  | name => some (String.ofList name, cs.dropWhile isKeyChar)

/-- A value, and the text after it. -/
def value? (cs : List Char) : Option (Setting × List Char) :=
  match string? cs with
  | some (text, rest) => some (.string text, rest)
  | none =>
    let isPart (c : Char) : Bool := c.isAlphanum || c == '_' || c == '+' || c == '-'
    (integer? (cs.takeWhile isPart)).map fun n => (.integer n, cs.dropWhile isPart)

/-- The text after the rest of a line: blanks, perhaps a comment, and the line break or the end. -/
def endOfLine? (cs : List Char) : Option (List Char) :=
  let cs := skipSpaces cs
  let comment := match cs with
    | '#' :: more => more.takeWhile fun c => c != '\n' && c != '\r'
    | _ => []
  let rest := match cs with
    | '#' :: more => more.dropWhile fun c => c != '\n' && c != '\r'
    | more => more
  if comment.any isControl then none
  else if rest.isEmpty then some []
  else lineBreak? rest

/-- The keys and values of a document, in order.  Every round takes a line, so the length of the
text bounds their number. -/
def lines? : Nat → List Char → Option (List (String × Setting))
  | 0, _ => none
  | rounds + 1, cs =>
    if cs.isEmpty then some []
    else match endOfLine? cs with
      | some rest => lines? rounds rest
      | none => do
        let (key, afterKey) ← key? (skipSpaces cs)
        match skipSpaces afterKey with
        | '=' :: more =>
          let (value, afterValue) ← value? (skipSpaces more)
          let rest ← endOfLine? afterValue
          return (key, value) :: (← lines? rounds rest)
        | _ => none

/-- The keys and values of a document, if no key stands in it twice.  A byte order mark may stand
before it. -/
def entries? (source : String) : Option (List (String × Setting)) := do
  let cs := match source.toList with
    | '\uFEFF' :: cs => cs
    | cs => cs
  let entries ← lines? (cs.length + 1) cs
  if (entries.map (·.1)).Nodup then some entries else none

/-- The settings with one more key set. -/
def set? (c : Config) : String × Setting → Option Config
  | ("max_call_depth", .integer n) => some { c with maxCallDepth := n }
  | ("max_steps", .integer n) => some { c with maxSteps := some n }
  | ("global_frame_name", .string s) => some { c with globalFrameName := s }
  | _ => none

end SettingsFile

/-- The settings that a document gives: what it does not mention keeps its default. -/
def Config.ofSettings (source : String) : Except ConfigError Config :=
  match (SettingsFile.entries? source).bind fun entries => entries.foldlM SettingsFile.set? {} with
  | none => .error .malformed
  | some c =>
    match c.validate with
    | .error reason => .error (.invalid reason)
    | .ok _ => .ok c

end ScriptTrace
