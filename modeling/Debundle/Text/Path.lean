import Debundle.Text.Chars

/-!
# Paths

Paths are texts whose components are divided by slashes. A path that starts with a slash is
absolute, any other is taken from a working directory.
-/
namespace Debundle.Path

/-- Components, the empty ones between and around slashes included. -/
def components (p : List Char) : List (List Char) :=
  Text.splitOn '/' p

def ofComponents (parts : List (List Char)) : List Char :=
  List.intercalate ['/'] parts

def isAbsolute : List Char → Bool
  | '/' :: _ => true
  | _ => false

/-- A path taken from another one. -/
def join (a b : List Char) : List Char :=
  if isAbsolute b then b
  else if a = [] || a.getLast? = some '/' then a ++ b
  else a ++ '/' :: b

/-- A path with a slash at its end, without all slashes there. -/
def dropSlashes (p : List Char) : List Char :=
  (p.reverse.dropWhile (· = '/')).reverse

/-- What stands before the last slash. Slashes alone are kept. -/
def directory (p : List Char) : List Char :=
  let head := (p.reverse.dropWhile (· ≠ '/')).reverse
  if head.all (· = '/') then head else dropSlashes head

/-- What stands after the last slash. -/
def base (p : List Char) : List Char :=
  (p.reverse.takeWhile (· ≠ '/')).reverse

def here : List Char := ['.']

def up : List Char := ['.', '.']

/-- Adds a component at the head of a list in reverse order; the parent of the root is the
root. -/
def push (rooted : Bool) (parts : List (List Char)) (part : List Char) : List (List Char) :=
  if part = [] || part = here then parts
  else if part = up then
    match parts with
    | [] => if rooted then [] else [up]
    | last :: rest => if last = up then up :: last :: rest else rest
  else part :: parts

/-- The slashes at the start of a path: none, one, or exactly two. -/
def root : List Char → List Char
  | '/' :: '/' :: '/' :: _ => ['/']
  | '/' :: '/' :: _ => ['/', '/']
  | '/' :: _ => ['/']
  | _ => []

/-- The path without empty components, `.`, and `..` after another component. -/
def normalize (p : List Char) : List Char :=
  let rooted := isAbsolute p
  let parts := ((components p).foldl (push rooted) []).reverse
  let path := root p ++ ofComponents parts
  if path = [] then here else path

def absolute (cwd p : List Char) : List Char :=
  normalize (if isAbsolute p then p else join cwd p)

/-- The nonempty components of the absolute path. -/
def absoluteParts (cwd p : List Char) : List (List Char) :=
  (components (absolute cwd p)).filter (· ≠ [])

/-- How many components two lists share at their start. -/
def shared : List (List Char) → List (List Char) → Nat
  | a :: as, b :: bs => if a = b then shared as bs + 1 else 0
  | _, _ => 0

/-- The way from a directory to a path, which must not be empty. -/
def relative? (cwd p start : List Char) : Option (List Char) :=
  if p = [] then none
  else
    let source := absoluteParts cwd start
    let target := absoluteParts cwd p
    let n := shared source target
    let parts := List.replicate (source.length - n) up ++ target.drop n
    some (if parts = [] then here else ofComponents parts)

end Debundle.Path
