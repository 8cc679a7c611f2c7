import LayoutMarkup.Toml.Value

/-!
# Numbers, dates and truth values

The TOML values that are written as a single word: whole numbers in four bases, floating-point
numbers, dates and times, `true` and `false`. Underscores may stand between digits. A number is read
by its outline: it may be too large to be held, or turn out to have characters that are no digits of
its base.
-/

namespace LayoutMarkup.Toml

/-- Whether the characters are digits, with single underscores between them allowed. -/
def isDigitRun (isDigit : Char → Bool) : List Char → Bool
  | [c] => isDigit c
  | c :: '_' :: rest => isDigit c && isDigitRun isDigit rest
  | c :: rest => isDigit c && isDigitRun isDigit rest
  | [] => false

/-- The value of a digit, in bases up to sixteen. -/
def digitValue (c : Char) : Nat :=
  if c.isDigit then c.toNat - '0'.toNat else c.toLower.toNat - 'a'.toNat + 10

/-- Whether a character is a digit of a base. -/
def isDigitOf (base : Nat) (c : Char) : Bool :=
  c.isAlphanum && digitValue c < base

/-- The number that digits of a base write. -/
def numberOf (base : Nat) (digits : List Char) : Nat :=
  (digits.filter (· != '_')).foldl (fun value c => base * value + digitValue c) 0

/-- A sign in front of a number. -/
inductive Sign where
  /-- The sign of a number that is not negative. -/
  | plus
  /-- The sign of a number that is not positive. -/
  | minus
  deriving DecidableEq, Repr

/-- Gives a size the sign that stands in front of it, if there is one. -/
def Sign.apply (sign : Option Sign) (size : Nat) : Int :=
  if sign = some .minus then -size else size

/-- Splits off a sign. -/
def splitSign : List Char → Option Sign × List Char
  | '-' :: cs => (some .minus, cs)
  | '+' :: cs => (some .plus, cs)
  | cs => (none, cs)

/-- The size of a number in decimal digits, from behind its sign; it has no zero in front. -/
def decimal? (cs : List Char) : Option Nat := do
  guard (isDigitRun (isDigitOf 10) cs ∧ (cs.length = 1 ∨ cs.head? ≠ some '0'))
  return numberOf 10 cs

/-- Whether the characters behind a sign have the outline of a whole number: underscores follow the
first digits, which begin with no zero, and on both sides of each there are digits of whatever base.
What stands further away from them is not looked at. -/
def isIntegerOutline (cs : List Char) : Bool :=
  let pieces := cs.splitOn '_'
  cs.head?.any (fun c => c.isDigit && c != '0') &&
    (cs.dropWhile Char.isDigit).head? == some '_' &&
    -- These characters are the mark of a floating-point number.
    !cs.any (fun c => c == '.' || c == 'e' || c == 'E') &&
    pieces.tail.all (fun piece => piece.head?.any (isDigitOf 16)) &&
    pieces.dropLast.all (fun piece => piece.getLast?.any (isDigitOf 16))

/-- The largest whole numbers that are accepted lie below `2 ^ 128`, the smallest at
`-2 ^ 127`. -/
def isAcceptedInteger (number : Int) : Bool :=
  -(Nat.pow 2 127 : Int) ≤ number && number < (Nat.pow 2 128 : Int)

/-- A whole number in one of the bases that have a mark. There may be no digits behind the mark. -/
def basedInteger? (base : Nat) (written digits : List Char) : Option Value := do
  if digits.isEmpty then return .unheld (String.ofList written)
  guard (isDigitRun (isDigitOf base) digits)
  let number : Int := numberOf base digits
  return if isAcceptedInteger number then .integer number else .unheld (String.ofList written)

/-- A whole number in decimal digits with an optional sign, or a word with the outline of one. -/
def decimalInteger? (written : List Char) : Option Value :=
  let (sign, cs) := splitSign written
  match decimal? cs with
  | some size =>
    let number := Sign.apply sign size
    if isAcceptedInteger number then some (.integer number)
    else some (.unheld (String.ofList written))
  | none =>
    if isIntegerOutline cs then some (.unheld (String.ofList written)) else none

/-- A whole number: in decimal digits with an optional sign, or in another base with a mark. -/
def integer? : List Char → Option Value
  | '0' :: 'x' :: digits => basedInteger? 16 ('0' :: 'x' :: digits) digits
  | '0' :: 'o' :: digits => basedInteger? 8 ('0' :: 'o' :: digits) digits
  | '0' :: 'b' :: digits => basedInteger? 2 ('0' :: 'b' :: digits) digits
  | cs => decimalInteger? cs

/-- Whether `digits * 10 ^ exponent` is too large for a double: from the middle between the largest
double and `2 ^ 1024` on. -/
def overflows (digits : Nat) (exponent : Int) : Bool :=
  let limit := Nat.pow 2 1024 - Nat.pow 2 970
  let magnitude : Int := (Nat.toDigits 10 digits).length + exponent
  -- Away from the limit the number of digits decides.
  if digits = 0 || magnitude < 309 then false
  else if 310 < magnitude then true
  else if 0 ≤ exponent then limit ≤ digits * Nat.pow 10 exponent.toNat
  else limit * Nat.pow 10 (-exponent).toNat ≤ digits

/-- Reads the exponent of a floating-point number; without one it is zero. -/
def exponent? : List Char → Option Int
  | [] => some 0
  | c :: cs => do
    let (sign, digits) := splitSign cs
    guard ((c = 'e' ∨ c = 'E') ∧ isDigitRun (isDigitOf 10) digits)
    return Sign.apply sign (numberOf 10 digits)

/-- Whether a character is a decimal digit or an underscore. -/
def isDigitOrUnderscore (c : Char) : Bool :=
  c.isDigit || c == '_'

/-- Reads a floating-point number, from behind its sign, as a whole number and a power of ten: it
has a whole part and then a fraction, an exponent, or both. -/
def scaled? (cs : List Char) : Option (Nat × Int) := do
  let whole := cs.takeWhile isDigitOrUnderscore
  guard (decimal? whole).isSome
  match cs.dropWhile isDigitOrUnderscore with
  | [] => none
  | '.' :: rest =>
    let fraction := rest.takeWhile isDigitOrUnderscore
    guard (isDigitRun (isDigitOf 10) fraction)
    let exponent ← exponent? (rest.dropWhile isDigitOrUnderscore)
    return (numberOf 10 (whole ++ fraction), exponent - (fraction.filter (· != '_')).length)
  | rest => return (numberOf 10 whole, ← exponent? rest)

/-- A floating-point number, or one of the words for infinity and for no number at all. -/
def float? (written : List Char) : Option Value := do
  let body := (splitSign written).2
  if body = "inf".toList ∨ body = "nan".toList then return .float (String.ofList written)
  let (digits, exponent) ← scaled? body
  return if overflows digits exponent then .unheld (String.ofList written)
    else .float (String.ofList written)

/-- Reads so many decimal digits as a number. -/
def fixedDigits? (count : Nat) (cs : List Char) : Option (Nat × List Char) := do
  let digits := cs.take count
  guard (digits.length = count ∧ digits.all Char.isDigit)
  return (numberOf 10 digits, cs.drop count)

/-- Drops a character that should stand in front. -/
def dropChar? (c : Char) : List Char → Option (List Char)
  | head :: rest => if head = c then some rest else none
  | [] => none

/-- The number of days of a month. -/
def daysIn (year month : Nat) : Nat :=
  if month = 2 then
    if year % 4 = 0 ∧ (year % 100 ≠ 0 ∨ year % 400 = 0) then 29 else 28
  else if month = 4 ∨ month = 6 ∨ month = 9 ∨ month = 11 then 30
  else 31

/-- Reads a date, `YYYY-MM-DD`, and gives what follows it. -/
def dropDate? (cs : List Char) : Option (List Char) := do
  let (year, cs) ← fixedDigits? 4 cs
  let (month, cs) ← fixedDigits? 2 (← dropChar? '-' cs)
  let (day, cs) ← fixedDigits? 2 (← dropChar? '-' cs)
  guard (1 ≤ month ∧ month ≤ 12 ∧ 1 ≤ day ∧ day ≤ daysIn year month)
  return cs

/-- Reads a fraction of a second, if there is one, and gives what follows it. -/
def dropFraction? : List Char → Option (List Char)
  | '.' :: cs => do
    guard ((cs.head?).any Char.isDigit)
    return cs.dropWhile Char.isDigit
  | cs => some cs

/-- Reads a time, `HH:MM` with optional seconds, and gives what follows it. -/
def dropTime? (cs : List Char) : Option (List Char) := do
  let (hour, cs) ← fixedDigits? 2 cs
  let (minute, cs) ← fixedDigits? 2 (← dropChar? ':' cs)
  guard (hour ≤ 23 ∧ minute ≤ 59)
  match cs with
  | ':' :: cs =>
    let (second, cs) ← fixedDigits? 2 cs
    guard (second ≤ 60)
    dropFraction? cs
  | cs => return cs

/-- Whether the characters are the offset of a time zone, or nothing. -/
def isZone : List Char → Bool
  | [] | ['Z'] | ['z'] => true
  | sign :: cs =>
    (sign == '+' || sign == '-') &&
      (do
        let (hour, cs) ← fixedDigits? 2 cs
        let (minute, cs) ← fixedDigits? 2 (← dropChar? ':' cs)
        return hour ≤ 23 && minute ≤ 59 && cs.isEmpty : Option Bool).getD false

/-- Whether the characters write a date, a time, or both. -/
def isDatetime (cs : List Char) : Bool :=
  match dropDate? cs with
  | some [] => true
  | some (delimiter :: rest) =>
    (delimiter == 'T' || delimiter == 't' || delimiter == ' ') && (dropTime? rest).any isZone
  | none => (dropTime? cs).any List.isEmpty

/-- The value that a word writes. -/
def scalar? (cs : List Char) : Option Value :=
  if cs = "true".toList then some (.boolean true)
  else if cs = "false".toList then some (.boolean false)
  else
    let datetime? : Option Value :=
      if isDatetime cs then some (.datetime (String.ofList cs)) else none
    integer? cs <|> float? cs <|> datetime?

/-- The characters that end a word: blanks, ends of lines, the mark of a comment, and those that
arrays, tables and pairs are built with. -/
def wordEnds : List Char :=
  [' ', '\t', '\n', '\r', '#', '=', ',', '[', ']', '\x7b', '\x7d']

/-- Whether a character may stand in a word. -/
def isWordChar (c : Char) : Bool :=
  !wordEnds.contains c

/-- Splits a word off the text. A date goes on behind a single blank if a digit follows. -/
def splitWord (cs : List Char) : List Char × List Char :=
  let word := cs.takeWhile isWordChar
  match cs.dropWhile isWordChar with
  | ' ' :: c :: rest =>
    -- Only the blank between a date and a time belongs to a word.
    if dropDate? word = some [] ∧ c.isDigit then
      (word ++ ' ' :: (c :: rest).takeWhile isWordChar, (c :: rest).dropWhile isWordChar)
    else
      (word, ' ' :: c :: rest)
  | rest => (word, rest)

end LayoutMarkup.Toml
