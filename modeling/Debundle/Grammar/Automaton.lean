import Debundle.Grammar.Automaton.Rows

/-!
# The automaton

The LALR(1) automaton of the grammar, as a table of rows.
-/
namespace Debundle.Automaton

@[irreducible] def action? (state : Nat) (t : Terminal) : Option Action :=
  rows[state]?.bind (·.action? t)

@[irreducible] def goto? (state : Nat) (n : Nonterminal) : Option Nat :=
  rows[state]?.bind (·.goto? n)

/-- Whether a state has a move on a terminal. -/
def accepts (state : Nat) (t : Terminal) : Bool :=
  (action? state t).isSome || (state == acceptState && t == .finish)

end Debundle.Automaton
