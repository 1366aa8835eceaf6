/-!
# Blank characters

The characters with the Unicode property `White_Space`.  A line typed at a prompt is read without
the blanks around it, so the property decides which typed lines are the same command.

* `isBlank`: the twenty-five characters with the property.
* `trim`: a text without the blanks at its two ends.
-/

namespace ScriptTrace.Text

/-- The characters with the property `White_Space`: the ASCII controls from tab to carriage
return, the space, the next-line control, the no-break space, and the spaces and separators of the
blocks further up. -/
def isBlank (c : Char) : Bool :=
  let n := c.toNat
  (0x09 ≤ n && n ≤ 0x0D) || n == 0x20 || n == 0x85 || n == 0xA0 || n == 0x1680 ||
    (0x2000 ≤ n && n ≤ 0x200A) || n == 0x2028 || n == 0x2029 || n == 0x202F || n == 0x205F ||
    n == 0x3000

/-- The characters of a text from the first that is not blank to the last that is not. -/
def trimChars (cs : List Char) : List Char :=
  ((cs.dropWhile isBlank).reverse.dropWhile isBlank).reverse

/-- A text without the blanks at its two ends. -/
def trim (s : String) : String :=
  String.ofList (trimChars s.toList)

end ScriptTrace.Text
