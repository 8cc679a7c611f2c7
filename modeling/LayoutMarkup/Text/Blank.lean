import LayoutMarkup.Text.Ranges

/-!
# Blanks

The characters with the White_Space property of the Unicode Standard. They separate the parts of a
tag and are trimmed from both ends of a selector.
-/

namespace LayoutMarkup.Text

/-- The ten ranges of White_Space, in increasing order. -/
def blanks : List (Nat × Nat) :=
  [(0x9, 0xD), (0x20, 0x20), (0x85, 0x85), (0xA0, 0xA0), (0x1680, 0x1680), (0x2000, 0x200A),
   (0x2028, 0x2029), (0x202F, 0x202F), (0x205F, 0x205F), (0x3000, 0x3000)]

/-- Whether a character has the White_Space property. -/
def isBlank (c : Char) : Bool :=
  inRanges blanks c

/-- The characters without the blanks in front of them. -/
def trimStart (cs : List Char) : List Char :=
  cs.dropWhile isBlank

/-- The characters without the blanks behind them. -/
def trimEnd (cs : List Char) : List Char :=
  (cs.reverse.dropWhile isBlank).reverse

/-- The characters without the blanks around them. -/
def trim (cs : List Char) : List Char :=
  trimEnd (trimStart cs)

end LayoutMarkup.Text
