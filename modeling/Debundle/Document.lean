import Debundle.Numeral.Basic
import Debundle.Ordered
import Debundle.Writing.Escape

/-!
# JSON documents

Documents are read strictly, except that `NaN` and the infinities count as numbers. They are
written in ASCII, with one item a line.
-/
namespace Debundle

inductive Document where
  | null
  | boolean (value : Bool)
  | number (literal : List Char)
  | text (value : String)
  | list (items : List Document)
  | fields (pairs : List (String × Document))

namespace Document

def skip (cs : List Char) : List Char :=
  cs.dropWhile fun c => c == ' ' || c == '\t' || c == '\n' || c == '\r'

/-- The code point of an escape of one letter. -/
def letter? (c : Char) : Option Nat :=
  if c = '"' || c = '\\' || c = '/' then some c.toNat
  else if c = 'b' then some 8
  else if c = 'f' then some 12
  else if c = 'n' then some 10
  else if c = 'r' then some 13
  else if c = 't' then some 9
  else none

/-- The code points of a text up to its closing quote, and what follows it. -/
def readPoints : List Char → Option (List Nat × List Char)
  | [] => none
  | '"' :: rest => some ([], rest)
  | '\\' :: 'u' :: a :: b :: c :: d :: rest => do
    let n := ((← Text.hexValue? a) * 16 + (← Text.hexValue? b)) * 256 +
      (← Text.hexValue? c) * 16 + (← Text.hexValue? d)
    let (points, rest) ← readPoints rest
    return (n :: points, rest)
  | '\\' :: c :: rest => do
    let n ← letter? c
    let (points, rest) ← readPoints rest
    return (n :: points, rest)
  | c :: rest =>
    if c.toNat < 0x20 then none
    else do
      let (points, rest) ← readPoints rest
      return (c.toNat :: points, rest)

/-- Joins surrogate pairs. Half a pair becomes the replacement character. -/
def ofPoints : List Nat → List Char
  | [] => []
  | [n] => [if 0xd800 ≤ n && n < 0xe000 then '\ufffd' else Char.ofNat n]
  | n :: m :: rest =>
    if 0xd800 ≤ n && n < 0xdc00 && 0xdc00 ≤ m && m < 0xe000 then
      Char.ofNat (0x10000 + (n - 0xd800) * 0x400 + (m - 0xdc00)) :: ofPoints rest
    else (if 0xd800 ≤ n && n < 0xe000 then '\ufffd' else Char.ofNat n) :: ofPoints (m :: rest)

def readText (cs : List Char) : Option (String × List Char) :=
  (readPoints cs).map fun (points, rest) => (String.ofList (ofPoints points), rest)

/-- A fraction or nothing, and what follows. -/
def readFraction : List Char → List Char × List Char
  | '.' :: rest =>
    let digits := rest.takeWhile Char.isDigit
    if digits = [] then ([], '.' :: rest) else ('.' :: digits, rest.dropWhile Char.isDigit)
  | cs => ([], cs)

/-- An exponent or nothing, and what follows. -/
def readExponent : List Char → List Char × List Char
  | e :: rest =>
    if e = 'e' || e = 'E' then
      let (sign, tail) := match rest with
        | '+' :: tail => (['+'], tail)
        | '-' :: tail => (['-'], tail)
        | tail => ([], tail)
      let digits := tail.takeWhile Char.isDigit
      if digits = [] then ([], e :: rest)
      else (e :: sign ++ digits, tail.dropWhile Char.isDigit)
    else ([], e :: rest)
  | [] => ([], [])

/-- A number that starts with a digit. Whole numbers have at most `Numeral.maxDigits` digits. -/
def readUnsigned (cs : List Char) : Option (List Char × List Char) :=
  let digits := match cs with
    | '0' :: _ => ['0']
    | cs => cs.takeWhile Char.isDigit
  if digits = [] then none
  else
    let (fraction, rest) := readFraction (cs.drop digits.length)
    let (exponent, rest) := readExponent rest
    if fraction = [] && exponent = [] && Numeral.maxDigits < digits.length then none
    else some (digits ++ fraction ++ exponent, rest)

/-- A given word, and what follows. -/
def readWord (word : List Char) (value : Document) (cs : List Char) :
    Option (Document × List Char) :=
  if word.isPrefixOf cs then some (value, cs.drop word.length) else none

def readNumber (cs : List Char) : Option (Document × List Char) :=
  match cs with
  | '-' :: rest =>
    (readWord "-Infinity".toList (.number "-Infinity".toList) cs) <|>
      (readUnsigned rest).map fun (literal, rest) => (.number ('-' :: literal), rest)
  | cs => (readUnsigned cs).map fun (literal, rest) => (.number literal, rest)

def readConstant (cs : List Char) : Option (Document × List Char) :=
  readWord "null".toList .null cs <|> readWord "true".toList (.boolean true) cs <|>
    readWord "false".toList (.boolean false) cs <|>
    readWord "NaN".toList (.number "NaN".toList) cs <|>
    readWord "Infinity".toList (.number "Infinity".toList) cs

mutual

/-- A value at the start of a text, and what follows it. -/
def readValue : Nat → List Char → Option (Document × List Char)
  | 0, _ => none
  | fuel + 1, cs =>
    match cs with
    | '"' :: rest => (readText rest).map fun (value, rest) => (.text value, rest)
    | '[' :: rest =>
      match skip rest with
      | ']' :: rest => some (.list [], rest)
      | rest => (readItems fuel rest).map fun (items, rest) => (.list items, rest)
    | '\x7b' :: rest =>
      match skip rest with
      | '\x7d' :: rest => some (.fields [], rest)
      | rest => (readFields fuel rest).map fun (pairs, rest) => (.fields pairs, rest)
    | cs => readConstant cs <|> readNumber cs

def readItems : Nat → List Char → Option (List Document × List Char)
  | 0, _ => none
  | fuel + 1, cs => do
    let (item, rest) ← readValue fuel cs
    match skip rest with
    | ']' :: rest => return ([item], rest)
    | ',' :: rest =>
      let (items, rest) ← readItems fuel (skip rest)
      return (item :: items, rest)
    | _ => none

def readFields : Nat → List Char → Option (List (String × Document) × List Char)
  | 0, _ => none
  | fuel + 1, cs =>
    match cs with
    | '"' :: rest => do
      let (key, rest) ← readText rest
      match skip rest with
      | ':' :: rest =>
        let (value, rest) ← readValue fuel (skip rest)
        match skip rest with
        | '\x7d' :: rest => return ([(key, value)], rest)
        | ',' :: rest =>
          let (pairs, rest) ← readFields fuel (skip rest)
          return ((key, value) :: pairs, rest)
        | _ => none
      | _ => none
    | _ => none

end

/-- The document that a text writes. -/
def read? (text : String) : Option Document :=
  let cs := skip text.toList
  match readValue (2 * cs.length + 2) cs with
  | some (value, rest) => if skip rest = [] then some value else none
  | none => none

/-- The value of a field. Of several with one key the last counts. -/
def field? (key : String) (pairs : List (String × Document)) : Option Document :=
  Ordered.get? key pairs.reverse

def escapeChar (c : Char) : List Char :=
  if c = '"' || c = '\\' then ['\\', c]
  else if c = '\n' then ['\\', 'n']
  else if c = '\r' then ['\\', 'r']
  else if c = '\t' then ['\\', 't']
  else if c = '\x08' then ['\\', 'b']
  else if c = '\x0c' then ['\\', 'f']
  else if c.toNat < 0x20 || 0x7f ≤ c.toNat then Escape.code true c
  else [c]

def writeText (s : String) : List Char :=
  '"' :: s.toList.flatMap escapeChar ++ ['"']

/-- Items between brackets, each on a line of its own. -/
def enclose (opening closing : Char) (depth : Nat) (items : List (List Char)) : List Char :=
  if items = [] then [opening, closing]
  else
    let line := fun (n : Nat) => '\n' :: List.replicate (2 * n) ' '
    opening :: List.intercalate [','] (items.map (line (depth + 1) ++ ·)) ++ line depth ++ [closing]

mutual

def write (depth : Nat) : Document → List Char
  | null => "null".toList
  | boolean value => if value then "true".toList else "false".toList
  | number literal => literal
  | text value => writeText value
  | list items => enclose '[' ']' depth (writeItems (depth + 1) items)
  | fields pairs => enclose '\x7b' '\x7d' depth (writeFields (depth + 1) pairs)

def writeItems (depth : Nat) : List Document → List (List Char)
  | [] => []
  | item :: rest => write depth item :: writeItems depth rest

def writeFields (depth : Nat) : List (String × Document) → List (List Char)
  | [] => []
  | (key, value) :: rest =>
    (writeText key ++ ':' :: ' ' :: write depth value) :: writeFields depth rest

end

end Document

end Debundle
