import Debundle.Bundle.Assembly
import Debundle.Normal.Normalize
import Debundle.Package.Descriptor
import Debundle.Run.Failure
import Debundle.Writing.Layout

/-!
# Unbundling

A run reads a bundle from a store, takes it apart, looks up the versions of its dependencies, and
writes the modules and a package descriptor. Nothing is written before all lookups are done.
-/
namespace Debundle

structure Options where
  style : Style := {}
  rules : Normal.Rules := {}
  entryNames : List String := ModuleName.entryNames
  writePackage : Bool := true
  packagePath : String := "package.json"
  registry : String := "https://registry.npmjs.org"
  /-- Seconds to wait for the registry. -/
  timeout : Numeral := .double (.ofRatio false 30 1)

/-- What a run extracted, and where it went. -/
structure Summary where
  modules : List String
  written : List String
  warnings : List String
  dependencies : List String
  package : Option String

/-- What a run leaves behind. -/
structure Outcome (α : Type) where
  store : Store
  requests : List String
  log : List Log.Entry
  result : Except Failure α

/-- The surroundings of a run. -/
structure World where
  cwd : String
  answer : String → Reply

namespace Run

/-- A bundle taken apart. -/
structure Plan where
  programs : List (String × Node)
  entries : List String
  warnings : List String
  dependencies : List String

/-- Takes a program apart. -/
def takeApart (cwd file : String) (options : Options) (program : Node) :
    Logged BundleFault Plan := do
  let kernel ← .ofExcept ((Bundle.kernel? file program).mapError .problem)
  match kernel with
  | none => .fail (.problem { cause := .noBundle, file := file })
  | some call =>
    let bundle ← .ofExcept ((Bundle.ofKernel file call).mapError .problem)
    let table ← Naming.resolve file options.entryNames bundle
    .debug ("Resolved " ++ toString table.size ++ " module name(s)")
    let assembly ← Assembly.ofBundle cwd file table bundle
    let programs ← assembly.programs.mapM fun (name, n) => do
      .debug ("Normalising " ++ name)
      .debug "Normalising Toplevel"
      return (name, n.normalize options.rules)
    return ⟨programs, table.entries, table.warnings, assembly.sortedDependencies⟩

/-- Reads a program from the text of a file and takes it apart. -/
def plan (cwd file text : String) (options : Options) : Logged Failure Plan := do
  .debug ("Parsing " ++ file ++ " (" ++ toString text.length ++ " characters)")
  let program ← (parse file text).logged.mapError .reading
  let resolved ← .ofExcept (program.resolve.mapError .defect)
  (takeApart cwd file options resolved).mapError .bundle

/-- The path of the file of a module. -/
def modulePath (directory name : String) : String :=
  String.ofList (Path.join directory.toList (name.toList ++ ModuleName.script))

/-- Writes a program to a file. -/
def saveProgram (cwd : String) (style : Style) (store : Store) (path : String) (n : Node) :
    Store × Option Failure :=
  match n.print style with
  | .error d => (store, some (.defect d))
  | .ok code =>
    let (store, error) := store.save cwd.toList path.toList (code ++ "\n")
    (store, error.map .file)

/-- Writes programs to files. All are tried, and the first failure counts. -/
def saveAll (cwd : String) (style : Style) : Store → List (String × Node) → Store × Option Failure
  | store, [] => (store, none)
  | store, (path, n) :: rest =>
    let (store, failure) := saveProgram cwd style store path n
    let (store, later) := saveAll cwd style store rest
    (store, failure <|> later)

/-- Writes modules below a directory. -/
def saveModules (cwd directory : String) (style : Style) (store : Store)
    (programs : List (String × Node)) : Outcome (List String) :=
  let files := programs.map fun (name, n) => (modulePath directory name, n)
  let log := files.map fun (path, _) => ⟨.info, "Writing " ++ path⟩
  match saveAll cwd style store files with
  | (store, some failure) => ⟨store, [], log, .error failure⟩
  | (store, none) => ⟨store, [], log, .ok (files.map Prod.fst)⟩

/-- Writes programs one by one until one fails: to a file, or to the output where there is no
path. -/
def emit (cwd : String) (style : Style) :
    Store → String → List (Option String × Node) → Store × String × Option Failure
  | store, output, [] => (store, output, none)
  | store, output, (none, n) :: rest =>
    match n.print style with
    | .ok code => emit cwd style store (output ++ code ++ "\n") rest
    | .error d => (store, output, some (.defect d))
  | store, output, (some path, n) :: rest =>
    match saveProgram cwd style store path n with
    | (store, none) => emit cwd style store output rest
    | (store, some failure) => (store, output, some failure)

/-- The text of a file, with all line ends as line feeds. -/
def readProgram (cwd : String) (store : Store) (path : String) : Except Failure String :=
  match store.read cwd.toList path.toList with
  | .ok text => .ok (String.ofList (Text.unifyLines text.toList))
  | .error e => .error (.file e)

/-- Writes the descriptor. -/
def saveDescriptor (cwd : String) (store : Store) (path : String) (d : Descriptor) :
    Store × Except Failure String :=
  match store.write cwd.toList path.toList d.text with
  | .ok store => (store, .ok path)
  | .error e => (store, .error (.file e))

/-- Writes modules below a directory, if one is given. Without modules none is needed. -/
def saveModulesIn (cwd : String) (directory : Option String) (style : Style) (store : Store)
    (programs : List (String × Node)) : Outcome (List String) :=
  match directory, programs with
  | some directory, _ => saveModules cwd directory style store programs
  | none, [] => ⟨store, [], [], .ok []⟩
  | none, _ => ⟨store, [], [], .error .noPath⟩

end Run

open Run in
/-- Unbundles a file into a directory. -/
def unbundle (w : World) (options : Options) (store : Store) (file : String)
    (directory : Option String) : Outcome Summary :=
  match readProgram w.cwd store file with
  | .error failure => ⟨store, [], [], .error failure⟩
  | .ok text =>
    let planned := plan w.cwd file text options
    match planned.outcome with
    | .error failure => ⟨store, [], planned.log, .error failure⟩
    | .ok plan =>
      let registry : Registry := ⟨options.registry, options.timeout, w.answer⟩
      let packages := if options.writePackage then plan.dependencies else []
      let requests := registry.requests packages
      let looked := registry.versions packages
      let log := planned.log ++ looked.log
      match looked.outcome with
      | .error failure => ⟨store, requests, log, .error (.lookup failure)⟩
      | .ok versions =>
        let saved := saveModulesIn w.cwd directory options.style store plan.programs
        let log := log ++ saved.log
        match saved.result with
        | .error failure => ⟨saved.store, requests, log, .error failure⟩
        | .ok written =>
          let summary : Summary :=
            ⟨plan.programs.map Prod.fst, written, plan.warnings, plan.dependencies, none⟩
          if options.writePackage then
            let name := String.ofList (Path.base file.toList)
            let entries := plan.entries.map (modulePath (directory.getD ""))
            match Descriptor.of? name entries versions with
            | none => ⟨saved.store, requests, log, .error .noEntries⟩
            | some d =>
              let path := String.ofList
                (Path.absolute w.cwd.toList options.packagePath.toList)
              let log := log ++ [⟨.info, "Writing " ++ path⟩]
              match saveDescriptor w.cwd saved.store path d with
              | (store, .error failure) => ⟨store, requests, log, .error failure⟩
              | (store, .ok path) =>
                ⟨store, requests, log, .ok { summary with package := some path }⟩
          else ⟨saved.store, requests, log, .ok summary⟩

end Debundle
