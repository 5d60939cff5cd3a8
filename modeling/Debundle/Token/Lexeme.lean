import Debundle.Grammar.Terminal
import Debundle.Text.Chars

/-!
# Lexemes

How far a token of each class reaches at the start of a text.
-/
namespace Debundle.Lexeme

open Text

def run (p : Char → Bool) (cs : List Char) : Nat :=
  (cs.takeWhile p).length

def word? (text cs : List Char) : Option Nat :=
  if text.isPrefixOf cs then some text.length else none

/-- A whole word ends where no name part follows. -/
def wholeWord? (text cs : List Char) : Option Nat :=
  match word? text cs with
  | some n => if (cs.drop n).head?.any isNamePart then none else some n
  | none => none

def keyword? (words : List (List Char)) (cs : List Char) : Option Nat :=
  words.findSome? (wholeWord? · cs)

/-- The rest of a string after its opening quote. A backslash takes the next character along, and
both characters of a line end. -/
def stringRest? (quote : Char) : List Char → Option Nat
  | [] => none
  | '\\' :: '\r' :: '\n' :: rest => (stringRest? quote rest).map (· + 3)
  | '\\' :: _ :: rest => (stringRest? quote rest).map (· + 2)
  | c :: rest =>
    if c = quote then some 1
    else if c = '\\' || c = '\n' || c = '\r' then none
    else (stringRest? quote rest).map (· + 1)

def string? : List Char → Option Nat
  | '"' :: rest => (stringRest? '"' rest).map (· + 1)
  | '\'' :: rest => (stringRest? '\'' rest).map (· + 1)
  | _ => none

/-- The rest of a regular expression after its opening slash, up to the closing one. A slash in
brackets does not close it. -/
def regexRest? (bracket : Bool) : List Char → Option Nat
  | [] => none
  | '\\' :: c :: rest =>
    if c = '\n' then none else (regexRest? bracket rest).map (· + 2)
  | c :: rest =>
    if c = '\\' || c = '\n' || c = '\r' then none
    else if bracket then (regexRest? (c != ']') rest).map (· + 1)
    else if c = '/' then some 1
    else (regexRest? (c == '[') rest).map (· + 1)

def regex? : List Char → Option Nat
  | '/' :: c :: rest =>
    if c = '*' || c = '/' then none
    else (regexRest? false (c :: rest)).map fun n =>
      1 + n + run Char.isAlpha ((c :: rest).drop n)
  | _ => none

/-- The exponent part of a number, or nothing. -/
def exponent (cs : List Char) : Nat :=
  match cs with
  | e :: rest =>
    if e = 'e' || e = 'E' then
      let mark := match rest with
        | '+' :: _ | '-' :: _ => 1
        | _ => 0
      let digits := run isDecimal (rest.drop mark)
      if digits = 0 then 0 else 1 + mark + digits
    else 0
  | [] => 0

def decimal? (cs : List Char) : Option Nat :=
  let whole := run isDecimal cs
  let part := match cs.drop whole with
    | '.' :: rest => 1 + run isDecimal rest
    | _ => 0
  let n := whole + part
  if whole = 0 && part ≤ 1 then none else some (n + exponent (cs.drop n))

def number? (cs : List Char) : Option Nat :=
  match cs with
  | '0' :: x :: rest =>
    let digits := run (fun c => (hexValue? c).isSome) rest
    if (x = 'x' || x = 'X') && digits ≠ 0 then some (2 + digits) else decimal? cs
  | _ => decimal? cs

def name? : List Char → Option Nat
  | c :: rest => if isNameStart c then some (1 + run isNamePart rest) else none
  | [] => none

/-- Every terminal with its reader, in the order in which they are tried. -/
def readers : List (Terminal × (List Char → Option Nat)) :=
  Terminal.keywords.map (fun k => (k.1, keyword? (k.2.map String.toList))) ++
    [(.regex, regex?), (.string, string?), (.number, number?), (.name, name?)] ++
    Terminal.punctuators.map fun p => (p.1, word? p.2.toList)

/-- A terminal, if it is allowed and the text starts with it, and its length. -/
def attempt? (allowed : Terminal → Bool) (cs : List Char)
    (r : Terminal × (List Char → Option Nat)) : Option (Terminal × Nat) :=
  match r.2 cs with
  | some n => if allowed r.1 then some (r.1, n) else none
  | none => none

/-- The first terminal, of those allowed, that the text starts with, and its length. -/
def first? (allowed : Terminal → Bool) (cs : List Char) : Option (Terminal × Nat) :=
  readers.findSome? (attempt? allowed cs)

end Debundle.Lexeme
