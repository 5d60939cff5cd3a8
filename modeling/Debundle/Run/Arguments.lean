import Debundle.Text.Quoted

/-!
# Command line arguments

Two operands and some options, in any order. Long options may be cut short as long as only one
fits. After `--` all arguments are operands.
-/
namespace Debundle

inductive Flag where
  | help | verbose | noConstants | noSequences | noConditionals | noPackage | registry
  deriving DecidableEq

/-- The value of an operand. There is none where only a divider stands for it. -/
abbrev Operand := Option String

structure Arguments where
  input : Operand
  output : Operand
  flags : List Flag := []
  registry : Option String := none

namespace Flag

/-- All spellings of options, in the order in which they are shown. -/
def spellings : List (String × Flag) :=
  [("-h", help), ("--help", help), ("--verbose", verbose), ("--no-constants", noConstants),
    ("--no-sequences", noSequences), ("--no-conditionals", noConditionals),
    ("--no-package", noPackage), ("--registry", registry)]

def ofSpelling? (spelling : String) : Option Flag :=
  (spellings.find? (·.1 = spelling)).map Prod.snd

/-- All spellings of an option. -/
def name (flag : Flag) : String :=
  String.intercalate "/" ((spellings.filter (·.2 = flag)).map Prod.fst)

end Flag

namespace Arguments

/-- What is wrong with a command line. -/
inductive Misuse where
  | ambiguous (argument : String) (fitting : List String)
  | missingValue (flag : Flag)
  | unwantedValue (flag : Flag) (value : String)
  | missingOperands (names : List String)
  | unrecognized (arguments : List String)
  deriving DecidableEq

def Misuse.message : Misuse → String
  | ambiguous argument fitting =>
    "ambiguous option: " ++ argument ++ " could match " ++ String.intercalate ", " fitting
  | missingValue flag => "argument " ++ flag.name ++ ": expected one argument"
  | unwantedValue flag value =>
    "argument " ++ flag.name ++ ": ignored explicit argument " ++ Text.quoted value
  | missingOperands names =>
    "the following arguments are required: " ++ String.intercalate ", " names
  | unrecognized arguments => "unrecognized arguments: " ++ String.intercalate " " arguments

/-- Why there is nothing to run. -/
inductive Stop where
  | misuse (misuse : Misuse)
  | help
  deriving DecidableEq

/-- What an argument is taken for. -/
inductive Mark where
  | operand
  | divider
  | option (flag : Flag) (spelling : String) (value : Option String)
  | unknown
  deriving DecidableEq

def Mark.isOption : Mark → Bool
  | option .. | unknown => true
  | _ => false

/-- The text before the first equals sign and the text after it, if there is one. -/
def splitValue (argument : List Char) : List Char × Option (List Char) :=
  match argument.dropWhile (· ≠ '=') with
  | [] => (argument, none)
  | _ :: value => (argument.takeWhile (· ≠ '='), some value)

/-- Numbers with a minus sign are operands. -/
def isNegative : List Char → Bool
  | '-' :: rest =>
    (rest ≠ [] && rest.all Text.isDecimal) ||
      match rest.dropWhile Text.isDecimal with
      | '.' :: digits => digits ≠ [] && digits.all Text.isDecimal
      | _ => false
  | _ => false

/-- The options that an argument may mean if it is no exact spelling. -/
def fitting (argument : List Char) : List (Flag × String × Option String) :=
  match argument with
  | '-' :: '-' :: _ =>
    let (start, value) := splitValue argument
    (Flag.spellings.filter fun (spelling, _) => start.isPrefixOf spelling.toList).map
      fun (spelling, flag) => (flag, spelling, value.map String.ofList)
  | _ =>
    Flag.spellings.filterMap fun (spelling, flag) =>
      if spelling.toList = argument.take 2 then
        some (flag, spelling, some (String.ofList (argument.drop 2)))
      else if argument.isPrefixOf spelling.toList then some (flag, spelling, none)
      else none

def mark (argument : String) : Except Stop Mark :=
  let cs := argument.toList
  match cs with
  | '-' :: _ :: _ =>
    match Flag.ofSpelling? argument with
    | some flag => .ok (.option flag argument none)
    | none =>
      let (start, value) := splitValue cs
      let spelling := String.ofList start
      match value, Flag.ofSpelling? spelling with
      | some value, some flag => .ok (.option flag spelling (some (String.ofList value)))
      | _, _ =>
        match fitting cs with
        | [(flag, spelling, value)] => .ok (.option flag spelling value)
        | [] => .ok (if isNegative cs || cs.contains ' ' then .operand else .unknown)
        | several =>
          .error (.misuse (.ambiguous argument (several.map fun (_, spelling, _) => spelling)))
  | _ => .ok .operand

/-- Marks all arguments. After the first divider there are only operands. -/
def marks : List String → Except Stop (List (String × Mark))
  | [] => .ok []
  | argument :: rest =>
    if argument = "--" then .ok ((argument, .divider) :: rest.map (·, .operand))
    else do
      let m ← mark argument
      return (argument, m) :: (← marks rest)

/-- What has been taken from a command line so far. -/
structure State where
  operands : List Operand := []
  flags : List Flag := []
  registry : Option String := none
  extras : List String := []

/-- The value that is left when the first divider is taken away. -/
def value (arguments : List String) : Operand :=
  match arguments.erase "--" with
  | [value] => some value
  | _ => none

def dividers (rest : List (String × Mark)) : List (String × Mark) × List (String × Mark) :=
  (rest.takeWhile (·.2 = .divider), rest.dropWhile (·.2 = .divider))

/-- One operand with the dividers around it, and what follows. -/
def operand? (rest : List (String × Mark)) : Option (List String × List (String × Mark)) :=
  let (before, rest) := dividers rest
  match rest with
  | (argument, .operand) :: rest =>
    let (after, rest) := dividers rest
    some (before.map Prod.fst ++ argument :: after.map Prod.fst, rest)
  | _ => none

def operandCount : Nat := 2

/-- Takes operands as long as some are wanted and there are some. -/
def takeOperands : Nat → State → List (String × Mark) → State × List (String × Mark)
  | 0, s, rest => (s, rest)
  | wanted + 1, s, rest =>
    match operand? rest with
    | none => (s, rest)
    | some (arguments, rest) =>
      takeOperands wanted { s with operands := s.operands ++ [value arguments] } rest

/-- An option of one letter may be followed by others of that kind. -/
def takeLetters (flag : Flag) : List Char → Except Stop Unit
  | [] => .ok ()
  | c :: rest =>
    match Flag.ofSpelling? (String.ofList ['-', c]) with
    | some flag => takeLetters flag rest
    | none => .error (.misuse (.unwantedValue flag (String.ofList (c :: rest))))

def setFlag (s : State) (flag : Flag) : Except Stop State :=
  if flag = .help then .error .help else .ok { s with flags := s.flags ++ [flag] }

/-- Takes an option, with its value if it has one. -/
def takeOption (s : State) (flag : Flag) (spelling : String) (given : Option String)
    (rest : List (String × Mark)) : Except Stop (State × List (String × Mark)) :=
  if flag = .registry then
    match given, rest with
    | some text, rest => .ok ({ s with registry := some text }, rest)
    | none, (text, .operand) :: rest => .ok ({ s with registry := some text }, rest)
    | none, _ => .error (.misuse (.missingValue flag))
  else
    match given with
    | none => do return (← setFlag s flag, rest)
    | some text =>
      if spelling.toList.take 2 = ['-', '-'] || text = "" then
        .error (.misuse (.unwantedValue flag text))
      else do
        takeLetters flag text.toList
        return (← setFlag s flag, rest)

/-- Takes operands and options in turn, as long as there are options. -/
def takeAll : Nat → State → List (String × Mark) → Except Stop (State × List (String × Mark))
  | 0, s, rest => .ok (s, rest)
  | bound + 1, s, rest =>
    if rest.any (·.2.isOption) then
      match rest with
      | (argument, .unknown) :: rest =>
        takeAll bound { s with extras := s.extras ++ [argument] } rest
      | (_, .option flag spelling given) :: rest => do
        let (s, rest) ← takeOption s flag spelling given rest
        takeAll bound s rest
      | rest =>
        let (taken, left) := takeOperands (operandCount - s.operands.length) s rest
        if left.length < rest.length then takeAll bound taken left
        else
          let skipped := (rest.takeWhile (!·.2.isOption)).map Prod.fst
          takeAll bound { s with extras := s.extras ++ skipped }
            (rest.dropWhile (!·.2.isOption))
    else .ok (s, rest)

/-- Reads a command line. -/
def ofList (arguments : List String) : Except Stop Arguments := do
  let marked ← marks arguments
  let (s, rest) ← takeAll (2 * marked.length + 1) {} marked
  let (s, rest) := takeOperands (operandCount - s.operands.length) s rest
  let extras := s.extras ++ rest.map Prod.fst
  match s.operands with
  | [input, output] =>
    if extras = [] then return ⟨input, output, s.flags, s.registry⟩
    else throw (.misuse (.unrecognized extras))
  | [_] => throw (.misuse (.missingOperands ["output"]))
  | _ => throw (.misuse (.missingOperands ["input", "output"]))

end Arguments

end Debundle
