import Debundle.Run.Arguments
import Debundle.Run.Unbundle

/-!
# The command

Runs a command line against a store. What cannot be done is told on the error stream.
-/
namespace Debundle.Command

/-- What a command leaves behind. -/
structure Result where
  store : Store
  requests : List String
  output : String := ""
  errors : String
  /-- The exit code, unless the command ended in a failure that is not reported. -/
  status : Except Failure Nat

def title : String := "unbrowserify"

def usage : String :=
  "usage: " ++ title ++ " [-h] [--verbose] [--no-constants] [--no-sequences] " ++
    "[--no-conditionals] [--no-package] [--registry REGISTRY] input output\n"

def optionsOf (a : Arguments) : Options :=
  let defaults : Options := {}
  { defaults with
    rules := ⟨!a.flags.contains .noConstants, !a.flags.contains .noSequences,
      !a.flags.contains .noConditionals⟩
    writePackage := !a.flags.contains .noPackage
    registry := a.registry.getD defaults.registry }

/-- The last remarks of a successful run. -/
def closing (output : Operand) (s : Summary) : List Log.Entry :=
  let count := s.warnings.length
  ⟨.info, "Extracted " ++ toString s.modules.length ++ " module(s) into " ++
    output.getD "[]"⟩ ::
    if count = 0 then []
    else [⟨.warning, toString count ++ " naming conflict(s); see the warnings above"⟩]

/-- The run that a command line asks for. -/
def outcomeOf (w : World) (store : Store) (a : Arguments) : Outcome Summary :=
  match a.input with
  | none => ⟨store, [], [], .error .noPath⟩
  | some input => unbundle w (optionsOf a) store input a.output

def runArguments (w : World) (store : Store) (a : Arguments) : Result :=
  let outcome := outcomeOf w store a
  let shown := Log.text (a.flags.contains .verbose)
  match outcome.result with
  | .ok summary =>
    { store := outcome.store, requests := outcome.requests
      errors := shown (outcome.log ++ closing a.output summary), status := .ok 0 }
  | .error failure =>
    match failure.text? with
    | some text =>
      { store := outcome.store, requests := outcome.requests
        errors := shown outcome.log ++ "Error: " ++ text ++ "\n", status := .ok 1 }
    | none =>
      { store := outcome.store, requests := outcome.requests
        errors := shown outcome.log, status := .error failure }

/-- What is said about a command line that cannot be run. -/
def complaint (m : Arguments.Misuse) : String :=
  title ++ ": error: " ++ m.message

/-- Runs a command line. -/
def run (w : World) (store : Store) (arguments : List String) : Result :=
  match Arguments.ofList arguments with
  | .ok a => runArguments w store a
  | .error .help =>
    { store := store, requests := [], output := usage, errors := "", status := .ok 0 }
  | .error (.misuse m) =>
    { store := store, requests := [], errors := usage ++ complaint m ++ "\n", status := .ok 2 }

end Debundle.Command
