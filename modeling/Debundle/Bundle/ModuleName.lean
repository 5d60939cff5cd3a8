import Debundle.Text.Lowercase
import Debundle.Text.Path

/-!
# Names of modules

A module is named by the path of its file without the extension. What a module requires by a path
is named from the directory of the module; what it requires by a bare name lives below
`node_modules`.
-/
namespace Debundle

namespace ModuleName

/-- Where packages live. -/
def packageRoot : List Char := "node_modules".toList

def index : List Char := "index".toList

def script : List Char := ".js".toList

def data : List Char := ".json".toList

/-- Whether a text ends in another one. -/
def endsIn (ending cs : List Char) : Bool :=
  ending.isSuffixOf cs

def stripChars (name : List Char) : List Char :=
  if endsIn script name then name.dropLast.dropLast.dropLast
  else if endsIn data name then name.take (name.length - data.length)
  else name

/-- The name without the extension of a script or a data file. -/
def stripExtension (name : String) : String :=
  String.ofList (stripChars name.toList)

/-- Specifiers that are paths start with a dot. -/
def isRelative : List Char → Bool
  | '.' :: _ => true
  | _ => false

/-- Whether a specifier, which leads to a path, denotes a directory. -/
def denotesDirectory (specifier path : List Char) : Bool :=
  specifier = Path.here || specifier = Path.up || specifier.getLast? = some '/' ||
    path = Path.here || path = Path.up || endsIn ('/' :: Path.up) path

def candidateChars (parent specifier : List Char) : List Char :=
  if isRelative specifier then
    let path := Path.normalize (Path.join (Path.directory parent) specifier)
    stripChars (if denotesDirectory specifier path then Path.join path index else path)
  else stripChars (Path.join (Path.join packageRoot specifier) index)

/-- The name of the module that `parent` requires by a specifier. -/
def candidate (parent specifier : String) : String :=
  String.ofList (candidateChars parent.toList specifier.toList)

def packageChars? (name : List Char) : Option (List Char) :=
  match Path.components name with
  | top :: package :: rest =>
    if top = packageRoot then
      match package, rest with
      | '@' :: _, part :: _ => some (package ++ '/' :: part)
      | _, _ => some package
    else none
  | _ => none

/-- The package in which a module lives, if it lives in one. -/
def package? (name : String) : Option String :=
  (packageChars? name.toList).map String.ofList

/-- The modules that the platform provides. -/
def builtins : List String :=
  ["assert", "async_hooks", "buffer", "child_process", "cluster", "console", "constants",
    "crypto", "dgram", "diagnostics_channel", "dns", "domain", "events", "fs", "http",
    "http2", "https", "inspector", "module", "net", "os", "path", "perf_hooks", "process",
    "punycode", "querystring", "readline", "repl", "stream", "string_decoder", "sys",
    "timers", "tls", "trace_events", "tty", "url", "util", "v8", "vm", "wasi",
    "worker_threads", "zlib"]

def scheme : List Char := "node:".toList

/-- Whether the platform provides a package, with or without its scheme. -/
def isBuiltin (package : String) : Bool :=
  let cs := package.toList
  let bare := if scheme.isPrefixOf cs then cs.drop scheme.length else cs
  builtins.contains (String.ofList (bare.takeWhile (· ≠ '/')))

end ModuleName

/-- What becomes of a module: it is extracted, dropped, or declared as a dependency. -/
inductive ModuleKind where
  | own | builtin | dependency
  deriving DecidableEq

namespace ModuleName

/-- Published packages have no capitals in their names, so a package with one is a copy that
belongs to the bundle. -/
def classify (name : String) : ModuleKind :=
  match package? name with
  | none => .own
  | some package =>
    if isBuiltin package then .builtin
    else if package = Text.lower package then .dependency
    else .own

/-- The names of the first two entries. -/
def entryNames : List String := ["main", "browser"]

/-- The name of the entry with a number. Negative numbers count from the end of the given
names. -/
def entry? (names : List String) (n : Int) : Option String :=
  if n < names.length then
    if n < 0 then
      if -n ≤ names.length then names[(names.length + n).toNat]? else none
    else names[n.toNat]?
  else some ("entry" ++ toString n)

/-- The name of the entry at a place of the entry list. -/
def entryAt (names : List String) (place : Nat) : String :=
  (names[place]?).getD ("entry" ++ toString place)

/-- The specifier by which one module requires another, given by their names. There is none for a
module without a name. -/
def specifier? (cwd source target : String) : Option String :=
  let directory := Path.directory source.toList
  let start := if directory = [] then Path.here else directory
  (Path.relative? cwd.toList (stripChars target.toList) start).map fun path =>
    let climbs := (Path.up ++ ['/']).isPrefixOf path
    String.ofList ((if climbs then path else '.' :: '/' :: path) ++ script)

end ModuleName

end Debundle
