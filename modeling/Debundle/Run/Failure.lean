import Debundle.Bundle.Layout
import Debundle.Package.Registry
import Debundle.Reading.Parse
import Debundle.Run.Store

/-!
# Failures of a run
-/
namespace Debundle

inductive Failure where
  | reading (failure : ReadFailure)
  | bundle (fault : BundleFault)
  | defect (defect : Defect)
  | file (error : FileError)
  | lookup (failure : LookupFailure)
  /-- A bundle without entries has no descriptor. -/
  | noEntries
  /-- No path is given for something to be read or written. -/
  | noPath

namespace Failure

def problem? : Failure → Option Problem
  | .reading (.problem p) | .bundle (.problem p) | .lookup (.problem p) => some p
  | _ => none

/-- What the user is told. Other failures are not expected, and end the run at once. -/
def text? (f : Failure) : Option String :=
  match f.problem? with
  | some p => some p.report.text
  | none =>
    match f with
    | .file e => if e.fault = .zeroByte then none else some e.message
    | .lookup (.broken _) => some ""
    | _ => none

end Failure

end Debundle
