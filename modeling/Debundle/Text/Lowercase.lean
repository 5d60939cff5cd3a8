import Debundle.Text.CaseRanges
import Debundle.Text.Chars

/-!
# Small letters

A capital sigma becomes the final small sigma at the end of a word. All other letters change on
their own.
-/
namespace Debundle.Text

def lowerCode (n : Nat) : Nat :=
  match capitalRuns.find? fun r => r.1 ≤ n && n ≤ r.2.1 && (n - r.1) % r.2.2.1 == 0 with
  | some r => ((n : Int) + r.2.2.2).toNat
  | none => n

/-- Whether a sigma between these texts ends a word; the text before it is given backwards. -/
def endsWord (before after : List Char) : Bool :=
  let cased := fun (cs : List Char) =>
    match cs.dropWhile (inRuns ignoredRuns ·.toNat) with
    | [] => false
    | c :: _ => inRuns casedRuns c.toNat
  cased before && !cased after

def lowerChars (before : List Char) : List Char → List Char
  | [] => []
  | c :: rest =>
    let small :=
      if c == '\u0130' then ['i', '\u0307']
      else if c == '\u03a3' then [if endsWord before rest then '\u03c2' else '\u03c3']
      else [Char.ofNat (lowerCode c.toNat)]
    small ++ lowerChars (c :: before) rest

def lower (s : String) : String :=
  String.ofList (lowerChars [] s.toList)

end Debundle.Text
