import Debundle.Document

/-!
# Package descriptors

The descriptor names the files of the first two entries and the packages on which the extracted
modules depend.
-/
namespace Debundle

structure Descriptor where
  name : String
  main : String
  browser : String
  dependencies : List (String × String) := []

namespace Descriptor

/-- The descriptor of a bundle whose entries are written to the given paths. Without a second
entry the first one serves browsers too. -/
def of? (name : String) (paths : List String) (dependencies : List (String × String)) :
    Option Descriptor :=
  match paths with
  | [] => none
  | [main] => some ⟨name, main, main, dependencies⟩
  | main :: browser :: _ => some ⟨name, main, browser, dependencies⟩

def table (pairs : List (String × String)) : Document :=
  .fields (pairs.map fun (key, value) => (key, .text value))

def document (d : Descriptor) : Document :=
  .fields ([("name", .text d.name), ("main", .text d.main), ("browser", .text d.browser),
      ("scripts", table [("test", "node -e \"require('.')\"")]),
      ("devDependencies", table [("unbrowserify", "UnifyMe/unbrowserify")])] ++
    if d.dependencies = [] then [] else [("dependencies", table d.dependencies)])

def text (d : Descriptor) : String :=
  String.ofList (d.document.write 0 ++ ['\n'])

end Descriptor

end Debundle
