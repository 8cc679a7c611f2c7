/-!
# Spans

Positions in a text are byte offsets into its UTF-8 form. A span is a half-open range of them, and
its slice exists exactly when both ends stand between characters of the text.
-/

namespace LayoutMarkup

namespace Text

/-- The number of bytes of the UTF-8 form of the characters. -/
def byteLength : List Char → Nat
  | [] => 0
  | c :: cs => c.utf8Size + byteLength cs

/-- Splits the characters after the first `n` bytes. There is no result when the characters end
before that, or when one of them would be cut in two. -/
def splitBytes? : Nat → List Char → Option (List Char × List Char)
  | 0, cs => some ([], cs)
  | _ + 1, [] => none
  | n + 1, c :: cs =>
    if c.utf8Size ≤ n + 1 then
      (splitBytes? (n + 1 - c.utf8Size) cs).map fun (front, back) => (c :: front, back)
    else
      none

/-- ASCII capitals become small letters; every other character stays. -/
def lower (s : String) : String :=
  String.ofList (s.toList.map Char.toLower)

end Text

/-- A half-open range of byte offsets. -/
structure Span where
  /-- The first offset of the range. -/
  start : Nat
  /-- The offset behind the range. -/
  stop : Nat
  deriving DecidableEq, Repr, Inhabited

namespace Span

/-- The empty span at an offset. -/
def point (offset : Nat) : Span :=
  ⟨offset, offset⟩

/-- The number of bytes in the span. -/
def size (s : Span) : Nat :=
  s.stop - s.start

/-- Whether the span holds no byte. -/
def isEmpty (s : Span) : Bool :=
  s.start == s.stop

/-- The smallest span that covers both. -/
def union (s t : Span) : Span :=
  ⟨min s.start t.start, max s.stop t.stop⟩

/-- Whether an offset lies in the span, both ends included. -/
def contains (s : Span) (offset : Nat) : Bool :=
  s.start ≤ offset && offset ≤ s.stop

/-- The text covered by the span, when the span lies in the text and cuts no character. -/
def slice? (s : Span) (text : String) : Option String := do
  guard (s.start ≤ s.stop)
  let (_, rest) ← Text.splitBytes? s.start text.toList
  let (covered, _) ← Text.splitBytes? s.size rest
  return String.ofList covered

/-- The span in writing, `start..stop`. -/
def render (s : Span) : String :=
  s!"{s.start}..{s.stop}"

end Span

end LayoutMarkup
