/-!
# The text of a string literal

What stands between the quotes of a string literal is read with a backslash taken away before every
character that it escapes.  Seven letters after a backslash stand for controls; any other character
stands for itself, a line break included.

* `unescape`: the text that the characters between the quotes spell.
-/

namespace ScriptTrace

/-- The character that stands for an escaped one. -/
def unescapeChar (c : Char) : Char :=
  if c = 'n' then '\n'
  else if c = 't' then '\t'
  else if c = 'r' then '\r'
  else if c = 'b' then '\x08'
  else if c = 'f' then '\x0c'
  else if c = 'v' then '\x0b'
  else if c = '0' then '\x00'
  else c

/-- The text that the characters between the quotes spell.  A backslash at the end escapes nothing
and is dropped. -/
def unescape : List Char → List Char
  | [] => []
  | ['\\'] => []
  | '\\' :: c :: cs => unescapeChar c :: unescape cs
  | c :: cs => c :: unescape cs

end ScriptTrace
