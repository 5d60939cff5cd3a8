import Debundle.Document
import Debundle.Log
import Debundle.Report
import Debundle.Text.Path

/-!
# Package registries

A registry is asked for a document on each package. The document tells the latest version.
-/
namespace Debundle

/-- What comes back from a request. -/
inductive Reply where
  | document (status : Int) (body : String)
  | timedOut
  | disconnected
  | refused
  | invalidAddress
  | broken (reason : String)

/-- Why a version is not known. -/
inductive LookupFailure where
  | problem (problem : Problem)
  /-- The document has tags that are no table. -/
  | malformedTags
  | broken (reason : String)

structure Registry where
  url : String
  timeout : Numeral
  answer : String → Reply

namespace Registry

/-- Where the document on a package is found. -/
def address (r : Registry) (package : String) : String :=
  String.ofList (Path.dropSlashes r.url.toList ++ '/' :: package.toList)

def failure {α : Type} (cause : Cause) : Except LookupFailure α :=
  .error (.problem { cause := cause })

/-- The version that a document on a package gives as the latest. -/
def latestOf (package : String) : Document → Except LookupFailure String
  | .fields pairs =>
    match Document.field? "dist-tags" pairs with
    | none => failure (.noVersion package)
    | some (.fields tags) =>
      match Document.field? "latest" tags with
      | some (.text version) => .ok version
      | _ => failure (.noVersion package)
    | some _ => .error .malformedTags
  | _ => failure (.noVersion package)

/-- The latest version of a package. -/
def latest (r : Registry) (package : String) : Except LookupFailure String :=
  match r.answer (r.address package) with
  | .timedOut => failure (.timedOut package ((Numeral.plain? r.timeout).getD ""))
  | .disconnected => failure (.unreachable r.url)
  | .refused => failure (.refused none package)
  | .invalidAddress => failure (.malformedDocument package)
  | .broken reason => .error (.broken reason)
  | .document status body =>
    if status = 404 then failure (.unpublished package r.url)
    else if 400 ≤ status && status < 600 then failure (.refused (some status) package)
    else match Document.read? body with
      | none => failure (.malformedDocument package)
      | some document => latestOf package document

/-- Distinct names in the order of their code points. -/
def sorted (names : List String) : List String :=
  (names.mergeSort fun a b => decide (a ≤ b)).eraseDups

/-- The addresses that are asked for, for a list of packages. -/
def requests (r : Registry) (packages : List String) : List String :=
  (sorted packages).map r.address

/-- The versions with which each of the packages is compatible. -/
def versions (r : Registry) (packages : List String) :
    Logged LookupFailure (List (String × String)) :=
  let names := sorted packages
  ⟨names.map fun name => ⟨.debug, "GET " ++ r.address name⟩,
    names.mapM fun name => do return (name, "^" ++ (← r.latest name))⟩

end Registry

end Debundle
