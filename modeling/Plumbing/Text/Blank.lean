/-!
# Blank characters

Two notions of blank, on code points. `isAsciiBlank` holds of tab, line feed, form feed,
carriage return and space, and not of the vertical tab. `isBlank` is the Unicode `White_Space`
property: the ASCII controls `09`–`0D`, space, next line `85`, no-break space `A0`, the Ogham
space mark `1680`, the spaces `2000`–`200A`, the line and paragraph separators `2028` and
`2029`, the narrow no-break space `202F`, the medium mathematical space `205F` and the
ideographic space `3000`, 25 code points in all.
-/

namespace Plumbing.Text

/-- The ranges of code points with the `White_Space` property, as inclusive bounds. -/
def blankRanges : List (Nat × Nat) :=
  [(0x09, 0x0D), (0x20, 0x20), (0x85, 0x85), (0xA0, 0xA0), (0x1680, 0x1680),
    (0x2000, 0x200A), (0x2028, 0x2029), (0x202F, 0x202F), (0x205F, 0x205F), (0x3000, 0x3000)]

/-- Whether a code point has the `White_Space` property. -/
def isBlank (c : Nat) : Bool :=
  blankRanges.any (fun r => r.1 ≤ c && c ≤ r.2)

/-- Whether a code point is an ASCII blank: tab, line feed, form feed, carriage return, space. -/
def isAsciiBlank (c : Nat) : Bool :=
  c == 0x09 || c == 0x0A || c == 0x0C || c == 0x0D || c == 0x20

/-- The table holds 25 code points. -/
example : (blankRanges.map (fun r => r.2 + 1 - r.1)).sum = 25 := by decide

end Plumbing.Text
