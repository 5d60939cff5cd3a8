import Debundle.Text.Quoted

/-!
# Reports

What is told to the user when a bundle cannot be taken apart, and where.
-/
namespace Debundle

inductive ReportKind where
  | general | badText | badShape | ambiguous | unresolved | unsupported | lookup
  deriving DecidableEq

def ReportKind.title : ReportKind → String
  | .general => "Unbundling Error"
  | .badText => "Syntax Error"
  | .badShape | .ambiguous => "Bundle Structure Error"
  | .unresolved => "Unresolved Module"
  | .unsupported => "Unsupported Test Case"
  | .lookup => "Version Lookup Error"

structure Report where
  kind : ReportKind
  message : String
  file : Option String := none
  line : Option Int := none
  column : Option Int := none
  context : Option String := none
  suggestion : Option String := none
  deriving DecidableEq

namespace Report

/-- A part of a report that is left out when there is nothing to say. -/
def part (before : String) (text : Option String) (after : String) : String :=
  match text with
  | none => ""
  | some t => if t = "" then "" else before ++ t ++ after

/-- Positions that count; zero does not. -/
def position (n : Option Int) : Option String :=
  n.bind fun n => if n = 0 then none else some (toString n)

/-- The report as shown on the console. -/
def text (r : Report) : String :=
  let place := match position r.line with
    | none => ""
    | some n => " at line " ++ n ++ part ", column " (position r.column) ""
  "\n❌ " ++ r.kind.title ++ part " in " r.file "" ++ place ++ ":\n" ++
    "   " ++ r.message ++ "\n" ++ part "   > " r.context "\n" ++ part "   💡 " r.suggestion "\n"

end Report

/-- The line of a text with a given number, counted from one, without blanks around it. -/
def lineContext (source : String) (line : Int) : Option String :=
  if source = "" || line ≤ 0 then none
  else ((Text.splitOn '\n' source.toList)[line.toNat - 1]?).map fun cs =>
    String.ofList (Text.trim cs)

/-- Why a bundle cannot be taken apart. -/
inductive Cause where
  | unexpectedEnd
  | unexpectedToken (text : String)
  | unexpectedCharacter (c : Char)
  | newlineAfterThrow
  | forHeader
  | strayWord (word : String)
  | severalCalls (firstLine : Option Nat)
  | fewArguments (count : Nat)
  | mapNotObject
  | entriesNotArray
  | accessorInMap
  | mapEntry (key : String)
  | noRequireMap (key : String)
  | badEntry
  | absentModule (name specifier target : String)
  | unnamedModule (id : String)
  | unnamedTarget (name specifier target : String)
  | noBundle
  | unsupportedStatement (kind : String)
  | unsupportedPart (kind : String)
  | badDescription
  | unsupportedLabel (label : String)
  | timedOut (package seconds : String)
  | unreachable (registry : String)
  | unpublished (package registry : String)
  | refused (status : Option Int) (package : String)
  | malformedDocument (package : String)
  | noVersion (package : String)
  deriving DecidableEq

namespace Cause

def kind : Cause → ReportKind
  | unexpectedEnd | unexpectedToken _ | unexpectedCharacter _ | newlineAfterThrow | forHeader
  | strayWord _ => .badText
  | severalCalls _ => .ambiguous
  | fewArguments _ | mapNotObject | entriesNotArray | accessorInMap | mapEntry _
  | noRequireMap _ | badEntry | noBundle => .badShape
  | absentModule .. | unnamedModule _ | unnamedTarget .. => .unresolved
  | unsupportedStatement _ | unsupportedPart _ | badDescription | unsupportedLabel _ =>
    .unsupported
  | timedOut .. | unreachable _ | unpublished .. | refused .. | malformedDocument _
  | noVersion _ => .lookup

/-- A number that may be unknown. -/
def numberText (n : Option Int) : String :=
  match n with
  | some n => toString n
  | none => "None"

def message : Cause → String
  | unexpectedEnd => "Unexpected end of input"
  | unexpectedToken text => "Unexpected token " ++ Text.quoted text
  | unexpectedCharacter c => "Unexpected character " ++ Text.quoted (String.singleton c)
  | newlineAfterThrow => "Illegal newline after throw"
  | forHeader => "Invalid for statement header"
  | strayWord word => "Unexpected token '" ++ word ++ "' in object literal"
  | severalCalls _ =>
    "Found more than one top-level call; cannot tell which one is the bundle kernel"
  | fewArguments count =>
    "Bundle kernel takes " ++ toString count ++ " argument(s), expected 3"
  | mapNotObject => "Malformed module map: the first kernel argument should be an object literal"
  | entriesNotArray =>
    "Malformed entry list: the third kernel argument should be an array literal"
  | accessorInMap => "Malformed module map: accessors are not allowed"
  | mapEntry key =>
    "Malformed module map entry " ++ Text.quoted key ++ ": expected [function, require map]"
  | noRequireMap key => "Module " ++ Text.quoted key ++ " has no require map"
  | badEntry => "Malformed entry list: entries should be numbers or strings"
  | absentModule name specifier target =>
    "Module " ++ name ++ " requires " ++ Text.quoted specifier ++ " as module " ++ target ++
      ", which is not in the bundle"
  | unnamedModule id => "Module " ++ id ++ " was never given a name"
  | unnamedTarget name specifier target =>
    "Module " ++ name ++ " requires " ++ Text.quoted specifier ++ " as module " ++ target ++
      ", which has no name"
  | noBundle => "Unable to find the bundle kernel"
  | unsupportedStatement kind | unsupportedPart kind => "Unsupported statement " ++ kind
  | badDescription => "A description must be a string literal"
  | unsupportedLabel label => "Unsupported label " ++ Text.quoted label
  | timedOut package seconds =>
    "Registry request for " ++ package ++ " timed out (" ++ seconds ++ "s)"
  | unreachable registry => "Failed to connect to the registry at " ++ registry
  | unpublished package registry =>
    "Package " ++ package ++ " is not published on " ++ registry
  | refused status package =>
    "Registry error (" ++ numberText status ++ ") for package " ++ package
  | malformedDocument package => "Registry returned a malformed document for " ++ package
  | noVersion package => "Registry document for " ++ package ++ " has no latest version"

def suggestion : Cause → Option String
  | forHeader => some "Use 'for (init; test; step)' or 'for (name in object)'"
  | strayWord _ => some "Only 'get' and 'set' may precede a property name"
  | severalCalls line =>
    some ("The first candidate starts at line " ++ numberText (line.map Int.ofNat))
  | fewArguments _ => some "Is this a browserify bundle?"
  | noRequireMap _ =>
    some "The second element of every module map entry must be an object literal"
  | unnamedModule _ => some "Only modules reachable from an entry module can be extracted"
  | noBundle => some "A browserify bundle is a single top-level call taking the module map"
  | unsupportedStatement _ =>
    some "Every top-level statement of a case file must be a labelled block"
  | unsupportedLabel _ => some "Cases only know description, input and expect"
  | timedOut .. => some "Check your network, or pass --no-package to skip package.json"
  | unreachable _ => some "Check your network, or pass --registry with a reachable mirror"
  | unpublished .. =>
    some "It may be a vendored copy; rename its directory or pass --no-package"
  | _ => none

end Cause

/-- A cause and the place where it arose. -/
structure Problem where
  cause : Cause
  file : Option String := none
  line : Option Nat := none
  column : Option Nat := none
  context : Option String := none
  deriving DecidableEq

def Problem.report (p : Problem) : Report :=
  ⟨p.cause.kind, p.cause.message, p.file, p.line.map Int.ofNat, p.column.map Int.ofNat,
    p.context, p.cause.suggestion⟩

end Debundle
