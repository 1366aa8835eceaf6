import ScriptTrace.Json.Basic
import ScriptTrace.Number.Layout

/-!
# JSON documents

The text of a JSON value over several lines: two spaces for every level, one field or item a line, a
space after the colon, and nothing between the brackets of an empty array or object.  Only the
quote, the backslash and the ASCII controls are escaped.

* `Json.quote`: a text as it stands in a document.
* `Json.pretty`: the document.
-/

namespace ScriptTrace.Json

/-- A digit of a control's four-digit escape. -/
def escapeDigit (n : Nat) : Char :=
  Nat.digitChar (n % 16)

/-- How a character is written in a document. -/
def escapeChar (c : Char) : List Char :=
  if c = '"' then ['\\', '"']
  else if c = '\\' then ['\\', '\\']
  else if c = '\n' then ['\\', 'n']
  else if c = '\r' then ['\\', 'r']
  else if c = '\t' then ['\\', 't']
  else if c.toNat = 0x08 then ['\\', 'b']
  else if c.toNat = 0x0C then ['\\', 'f']
  else if c.toNat < 0x20 then ['\\', 'u', '0', '0', escapeDigit (c.toNat / 16), escapeDigit c.toNat]
  else [c]

/-- A text as it stands in a document. -/
def quote (s : String) : String :=
  "\"" ++ String.ofList (s.toList.flatMap escapeChar) ++ "\""

/-- The start of a line at a level. -/
def indent (level : Nat) : String :=
  "\n" ++ String.ofList (List.replicate (2 * level) ' ')

mutual

/-- The text of a value whose first line stands at a level. -/
def prettyAt (level : Nat) : Json → String
  | .null => "null"
  | .bool b => if b then "true" else "false"
  | .int i => toString i
  | .num x => x.jsonText
  | .str s => quote s
  | .arr [] => "[]"
  | .arr (x :: xs) =>
    "[" ++ indent (level + 1) ++ prettyAt (level + 1) x ++ prettyItems (level + 1) xs ++
      indent level ++ "]"
  | .obj [] => "\x7b\x7d"
  | .obj ((k, v) :: fields) =>
    "\x7b" ++ indent (level + 1) ++ quote k ++ ": " ++ prettyAt (level + 1) v ++
      prettyFields (level + 1) fields ++ indent level ++ "\x7d"

/-- The items of an array after the first, each with the comma before it. -/
def prettyItems (level : Nat) : List Json → String
  | [] => ""
  | x :: xs => "," ++ indent level ++ prettyAt level x ++ prettyItems level xs

/-- The fields of an object after the first, each with the comma before it. -/
def prettyFields (level : Nat) : List (String × Json) → String
  | [] => ""
  | (k, v) :: fields =>
    "," ++ indent level ++ quote k ++ ": " ++ prettyAt level v ++ prettyFields level fields

end

/-- The document of a value. -/
def pretty (j : Json) : String :=
  prettyAt 0 j

end ScriptTrace.Json
