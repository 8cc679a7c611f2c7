/-!
# Character ranges

A character property of the Unicode Standard is given as a list of inclusive code point ranges.
-/

namespace LayoutMarkup.Text

/-- Whether the code point of a character lies in one of the inclusive ranges. -/
def inRanges (ranges : List (Nat × Nat)) (c : Char) : Bool :=
  ranges.any fun (low, high) => low ≤ c.toNat && c.toNat ≤ high

end LayoutMarkup.Text
