import Debundle.Bundle.Layout
import Debundle.Bundle.NameTable

/-!
# Naming modules

The entries have names of their own. A module with a name proposes names for the modules that it
requires. Modules are visited in passes until a pass finds no module that has got a name.
-/
namespace Debundle.Naming

abbrev Sources := List (String × Source)

/-- What a bundle needs to name its modules. -/
structure Context where
  file : Option String
  sources : Sources

/-- A property of a require map that leads to no module is passed over. -/
def skip {ε : Type} (specifier : String) : Logged ε Unit :=
  .debug ("Skipping require of " ++ Text.quoted specifier ++ ": no module id")

/-- Proposes a name for what a module named `name` requires. -/
def follow (ctx : Context) (line : Option Nat) (name : String) (table : NameTable) (edge : Edge) :
    Logged BundleFault NameTable := do
  match edge.target with
  | .error fault => .fail fault
  | .ok none =>
    skip edge.specifier
    return table
  | .ok (some target) =>
    if (Ordered.get? target ctx.sources).isSome then
      let candidate := ModuleName.candidate name edge.specifier
      ⟨table.remarks target candidate, .ok (table.propose target candidate)⟩
    else
      .fail (.problem
        { cause := .absentModule name edge.specifier target, file := ctx.file, line := line })

/-- Follows all that a module requires. -/
def visit (ctx : Context) (name : String) (table : NameTable) (source : Source) :
    Logged BundleFault NameTable :=
  source.edges.foldlM (follow ctx source.requires.line name) table

/-- Visits the modules that have a name when their turn comes, and gives back the others. -/
def pass (ctx : Context) : Sources → NameTable → Logged BundleFault (NameTable × Sources)
  | [], table => return (table, [])
  | (id, source) :: rest, table =>
    match table.get? id with
    | none => do
      let (table, deferred) ← pass ctx rest table
      return (table, (id, source) :: deferred)
    | some name => do
      let table ← visit ctx name table source
      pass ctx rest table

def unnamed {ε : Type} (sources : Sources) : Logged ε Unit :=
  sources.forM fun (id, _) =>
    .debug ("Module " ++ id ++ " is never required; leaving it unnamed")

/-- Makes passes until nothing is left or a pass visits no module. There are at most as many as
there are modules to visit. -/
def passes (ctx : Context) : Nat → Sources → NameTable → Logged BundleFault NameTable
  | 0, _, table => return table
  | fuel + 1, pending, table => do
    if pending.isEmpty then return table
    let (table, deferred) ← pass ctx pending table
    if deferred.length = pending.length then
      unnamed deferred
      return table
    passes ctx fuel deferred table

/-- Names the entries by their places in the entry list. -/
def seedEntries (file : Option String) (names : List String) :
    Nat → List Node → NameTable → Except BundleFault NameTable
  | _, [], table => return table
  | place, entry :: rest, table => do
    match ← Bundle.id? entry with
    | none => throw (.problem { cause := .badEntry, file := file, line := entry.line })
    | some id =>
      seedEntries file names (place + 1) rest (table.seed id (ModuleName.entryAt names place))

/-- Names the modules of a bundle that its entries reach. -/
def resolve (file : Option String) (names : List String) (b : Bundle) :
    Logged BundleFault NameTable := do
  let sources ← .ofExcept ((b.sources file).mapError .problem)
  let table ← .ofExcept (seedEntries file names 0 b.entries {})
  passes ⟨file, sources⟩ sources.length sources table

end Debundle.Naming
