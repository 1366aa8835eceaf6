import ScriptTrace.Text.Hidden

/-!
# Quoted text

A text between double quotes, written so that every character of it can be seen.  The quote and
the backslash are escaped, four controls have short names, and any other hidden character is
written by its code point.

* `escapeChar`: how one character is written.
* `quote`: how a text is written.
-/

namespace ScriptTrace.Text

/-- The hexadecimal digits of a number, in lower case and without leading zeros. -/
def hexDigits (n : Nat) : String :=
  String.ofList (Nat.toDigits 16 n)

/-- How a character is written between double quotes. -/
def escapeChar (c : Char) : String :=
  if c = '"' then "\\\""
  else if c = '\\' then "\\\\"
  else if c = '\t' then "\\t"
  else if c = '\r' then "\\r"
  else if c = '\n' then "\\n"
  else if c.toNat = 0 then "\\0"
  else if isHidden c then "\\u\x7b" ++ hexDigits c.toNat ++ "\x7d"
  else c.toString

/-- A text between double quotes with every character visible. -/
def quote (s : String) : String :=
  "\"" ++ String.join (s.toList.map escapeChar) ++ "\""

end ScriptTrace.Text
