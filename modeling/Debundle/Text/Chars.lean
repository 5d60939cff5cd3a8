import Debundle.Text.WordRanges
import Debundle.Text.DigitRanges
import Debundle.Text.HiddenRanges

/-!
# Character classes

The classes that decide how program text is read and shown: words, digits, blanks, line ends.
-/
namespace Debundle.Text

/-- Whether a code point is in a class that is given by its runs: as many code points as the first
number says are not in it, as many as the second says are, and so on. -/
def inRuns : List Nat → Nat → Bool
  | outside :: inside :: runs, n =>
    if n < outside + inside then outside ≤ n else inRuns runs (n - (outside + inside))
  | _, _ => false

/-- The value of a decimal digit of any script. -/
def decimalValue? (c : Char) : Option Nat :=
  if c.toNat < 128 then
    if c.isDigit then some (c.toNat - 0x30) else none
  else
    (zeroDigits.find? fun z => z ≤ c.toNat && c.toNat < z + 10).map (c.toNat - ·)

def isDecimal (c : Char) : Bool :=
  (decimalValue? c).isSome

/-- Decimal digits together with superscript, circled and similar digits. -/
def isDigitSign (c : Char) : Bool :=
  isDecimal c || inRuns looseDigitRuns c.toNat

/-- Letters and numbers of any script, and the underscore. -/
def isWord (c : Char) : Bool :=
  if c.toNat < 128 then c.isAlphanum || c == '_' else inRuns wordRuns c.toNat

/-- Characters that may continue a name. -/
def isNamePart (c : Char) : Bool :=
  isWord c || c == '$'

/-- Characters that may begin a name. -/
def isNameStart (c : Char) : Bool :=
  (isWord c && !isDecimal c) || c == '$'

def isBlank (c : Char) : Bool :=
  let n := c.toNat
  (9 ≤ n && n ≤ 13) || (0x1c ≤ n && n ≤ 0x20) || n == 0x85 || n == 0xa0 || n == 0x1680 ||
    (0x2000 ≤ n && n ≤ 0x200a) || n == 0x2028 || n == 0x2029 || n == 0x202f || n == 0x205f ||
    n == 0x3000

def isLineEnd (c : Char) : Bool :=
  c == '\n' || c == '\r' || c == '\u2028' || c == '\u2029'

/-- Characters with a visible form; the space is one of them. -/
def isVisible (c : Char) : Bool :=
  if c.toNat < 128 then 0x20 ≤ c.toNat && c.toNat < 0x7f else !inRuns hiddenRuns c.toNat

def hexValue? (c : Char) : Option Nat :=
  if c.isDigit then some (c.toNat - 0x30)
  else if 'a' ≤ c && c ≤ 'f' then some (c.toNat - 0x57)
  else if 'A' ≤ c && c ≤ 'F' then some (c.toNat - 0x37)
  else none

/-- Removes the characters of a class at both ends. -/
def trimBy (p : Char → Bool) (cs : List Char) : List Char :=
  ((cs.dropWhile p).reverse.dropWhile p).reverse

/-- Removes blanks at both ends. -/
def trim (cs : List Char) : List Char :=
  trimBy isBlank cs

/-- Cuts a list at every occurrence of a separator, which is left out. -/
def splitOn (separator : Char) : List Char → List (List Char)
  | [] => [[]]
  | c :: rest =>
    if c = separator then [] :: splitOn separator rest
    else match splitOn separator rest with
      | [] => [[c]]
      | first :: others => (c :: first) :: others

/-- All line ends as line feeds. -/
def unifyLines : List Char → List Char
  | [] => []
  | '\r' :: '\n' :: rest => '\n' :: unifyLines rest
  | c :: rest => (if c = '\r' then '\n' else c) :: unifyLines rest

/-- A code point in small hexadecimal digits, filled up with zeros to a least width. -/
def hex (width n : Nat) : List Char :=
  let digits := Nat.toDigits 16 n
  List.replicate (width - digits.length) '0' ++ digits

/-! ## Properties of all characters of a text

They are decided by going through the text, not through all the characters there are. -/

instance decidableForallMem {p : Char → Prop} [DecidablePred p] (cs : List Char) :
    Decidable (∀ c ∈ cs, p c) :=
  cs.decidableBAll p

instance decidableForallMem? {p : Char → Prop} [DecidablePred p] (c? : Option Char) :
    Decidable (∀ c ∈ c?, p c) :=
  c?.decidableForallMem

end Debundle.Text
