import Debundle.Bundle.ModuleName
import Debundle.Log
import Debundle.Ordered

/-!
# Name tables

A name table gives modules their names, from what is known of them. The first name of a module
stays, unless a shorter one is proposed later: then the module is the index of that directory.
-/
namespace Debundle

structure NameTable where
  names : List (String × String) := []
  /-- The names of the entries. -/
  entries : List String := []
  warnings : List String := []
  deriving DecidableEq

namespace NameTable

def get? (t : NameTable) (id : String) : Option String :=
  Ordered.get? id t.names

def size (t : NameTable) : Nat :=
  t.names.length

/-- Gives an entry its name, unless it has one. -/
def seed (t : NameTable) (id name : String) : NameTable :=
  match t.get? id with
  | some _ => t
  | none => { t with names := Ordered.put id name t.names, entries := t.entries ++ [name] }

def indexOf (name : String) : String := name ++ "/index"

/-- What a proposed name means to a table. -/
inductive Verdict where
  | fresh
  | agrees
  | kept (existing : String)
  | moved (existing : String)
  deriving DecidableEq

/-- Names that differ only in capitals agree, and so do a directory and its index. -/
def judge (t : NameTable) (id candidate : String) : Verdict :=
  match t.get? id with
  | none => .fresh
  | some existing =>
    if Text.lower existing = Text.lower candidate || existing = indexOf candidate then .agrees
    else if existing.length ≤ candidate.length then .kept existing
    else .moved existing

/-- What is said about a proposed name that stands against another one. -/
def conflict (id candidate : String) : Verdict → Option String
  | .fresh | .agrees => none
  | .kept existing => some ("Module " ++ id ++ " is required as both " ++ existing ++ " and " ++
      candidate ++ "; keeping " ++ existing)
  | .moved existing => some ("Module " ++ id ++ " is required as both " ++ existing ++ " and " ++
      candidate ++ "; renaming it to " ++ indexOf candidate)

/-- Takes note of a name under which a module is required. -/
def propose (t : NameTable) (id candidate : String) : NameTable :=
  let verdict := t.judge id candidate
  let warnings := t.warnings ++ (conflict id candidate verdict).toList
  match verdict with
  | .fresh => { t with names := Ordered.put id candidate t.names }
  | .agrees => t
  | .kept _ => { t with warnings := warnings }
  | .moved _ => { t with
      names := Ordered.put id (indexOf candidate) t.names, warnings := warnings }

/-- What is logged about a proposed name. -/
def remarks (t : NameTable) (id candidate : String) : List Log.Entry :=
  match t.judge id candidate with
  | .fresh => [⟨.debug, "Module " ++ id ++ " is " ++ candidate⟩]
  | verdict => (conflict id candidate verdict).toList.map (⟨.warning, ·⟩)

end NameTable

end Debundle
