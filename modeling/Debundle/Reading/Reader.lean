import Debundle.Reading.Derivation
import Debundle.Report

/-!
# Reading with omitted semicolons

A semicolon may be left out before a closing brace, at the end of the text, and before a token
that no rule admits on a new line. After `return`, `break` and `continue` a line end closes the
statement, and `++` or `--` at the start of a line never belong to the operand before them.
-/
namespace Debundle

/-- A semicolon was supplied before a token of this class on this line. -/
structure Insertion where
  terminal : Terminal
  line : Nat
  deriving DecidableEq

/-- A text as it is being read. -/
structure Reader where
  stack : List Derivation.Frame
  cursor : Cursor
  /-- The last token given to the automaton, supplied semicolons apart. -/
  previous : Option Token
  /-- The last token taken from the text. -/
  last : Option Token
  /-- Tokens before which a semicolon was supplied after a refusal. -/
  patched : List (Terminal × Nat)
  /-- Supplied semicolons, latest first. -/
  insertions : List Insertion

namespace Reader

/-- Why reading stops. -/
inductive Stop where
  | token (token : Token)
  | character (c : Char) (line column : Nat)
  | newlineAfterThrow (previous : Token)
  | broken

inductive Step where
  | next (reader : Reader)
  | done (tree : Derivation) (reader : Reader)
  | stopped (stop : Stop) (reader : Reader)

def ofText (cs : List Char) : Reader :=
  ⟨[], .ofText cs, none, none, [], []⟩

def state (r : Reader) : Nat :=
  Derivation.topState r.stack

def accepts (r : Reader) (t : Terminal) : Bool :=
  Automaton.accepts r.state t

/-- A semicolon in the place of a token. -/
def semicolonAt (token : Token) : Token :=
  { token with terminal := .semicolon, text := ";" }

/-- The end of the text, in the place of the last token. -/
def finishToken (r : Reader) : Token :=
  match r.last with
  | some token => { token with terminal := .finish, text := "" }
  | none => ⟨.finish, "", 0, 1, 1, false⟩

/-- Supplies a semicolon before a token. -/
def insert (r : Reader) (token : Token) : Step :=
  let r := { r with insertions := ⟨token.terminal, token.line⟩ :: r.insertions }
  match Derivation.feed (semicolonAt token) r.stack with
  | .shifted stack => .next { r with stack := stack }
  | .refused stack => .stopped (.token (semicolonAt token)) { r with stack := stack }
  | .accepted _ | .broken => .stopped .broken r

/-- The keyword that a name spells, if the reader has a place for that keyword. -/
def asKeyword (r : Reader) (token : Token) : Token :=
  if token.terminal = .name then
    match Terminal.keywords.find? fun k => r.accepts k.1 && decide (token.text ∈ k.2) with
    | some k => { token with terminal := k.1 }
    | none => token
  else token

def isRestricted (t : Terminal) : Bool :=
  t ∈ [.kwReturn, .kwBreak, .kwContinue, .kwThrow]

/-- Tokens that can end an operand. -/
def endsOperand (t : Terminal) : Bool :=
  t ∈ [.name, .number, .string, .regex, .kwThis, .kwNull, .kwTrue, .kwFalse, .rparen, .rbracket]

/-- What has to happen before a token on a new line is given to the automaton. -/
inductive Preparation where
  | ready (token : Token) (reader : Reader)
  | stopped (stop : Stop) (reader : Reader)

def prepare (r : Reader) (token : Token) : Preparation :=
  match r.previous with
  | none => .ready token r
  | some previous =>
    if !token.afterLineEnd then .ready token r
    else if isRestricted previous.terminal then
      if token.terminal = .semicolon then .ready token r
      else if previous.terminal = .kwThrow then .stopped (.newlineAfterThrow previous) r
      else match r.insert token with
        | .next r => .ready (r.asKeyword token) r
        | .done _ r => .stopped .broken r
        | .stopped stop r => .stopped stop r
    else if (token.text = "++" || token.text = "--") && endsOperand previous.terminal &&
        r.accepts .semicolon && !r.accepts .kwReturn then
      match r.insert token with
      | .next r => .ready token r
      | .done _ r => .stopped .broken r
      | .stopped stop r => .stopped stop r
    else .ready token r

/-- Goes on after a token was refused, if a semicolon may be supplied before it. -/
def recover (r : Reader) (token : Token) : Step :=
  let finished := token.terminal = .finish
  if !r.accepts .semicolon || (token.terminal, token.start) ∈ r.patched ||
      !(finished || token.terminal = .rbrace || token.afterLineEnd) then
    .stopped (.token token) r
  else
    match insert { r with patched := (token.terminal, token.start) :: r.patched } token with
    | .next r =>
      if finished then .next r
      else match Derivation.feed token r.stack with
        | .shifted stack => .next { r with stack := stack, previous := some token }
        | .refused stack => .stopped (.token token) { r with stack := stack }
        | .accepted _ | .broken => .stopped .broken r
    | step => step

/-- Gives a token to the automaton. -/
def give (r : Reader) (token : Token) : Step :=
  match Derivation.feed token r.stack with
  | .shifted stack => .next { r with stack := stack, previous := some token }
  | .accepted tree => .done tree r
  | .refused stack => recover { r with stack := stack } token
  | .broken => .stopped .broken r

/-- Takes the next token and gives it to the automaton. A token that has no place here is looked
for among all classes, so that it can be told. -/
def step (r : Reader) : Step :=
  match r.cursor.scan r.accepts with
  | .finished => r.give r.finishToken
  | .token token after =>
    match prepare { r with cursor := after, last := some token } token with
    | .ready token r => r.give token
    | .stopped stop r => .stopped stop r
  | .stuck place =>
    match Lexeme.first? (fun _ => true) place.rest with
    | some (t, n) =>
      let token := place.token t n
      recover { r with cursor := place.advance n, last := some token } token
    | none =>
      match place.rest with
      | c :: _ => .stopped (.character c place.line place.column) r
      | [] => .stopped .broken r

/-- Reads to the end. Every step but the last two takes a token. -/
def run : Nat → Reader → Except Stop Derivation × Reader
  | 0, r => (.error .broken, r)
  | fuel + 1, r =>
    match r.step with
    | .next r => run fuel r
    | .done tree r => (.ok tree, r)
    | .stopped stop r => (.error stop, r)

def read (cs : List Char) : Except Stop Derivation × Reader :=
  run (cs.length + 3) (ofText cs)

end Reader

end Debundle
