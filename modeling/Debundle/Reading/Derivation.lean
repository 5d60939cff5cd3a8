import Debundle.Grammar.Automaton
import Debundle.Token.Cursor

/-!
# Derivations

The automaton reads one token at a time. Its stack holds a derivation for every symbol read so
far, each with the state that was entered after it.
-/
namespace Debundle

/-- A derivation tree: tokens at the leaves, positions of rules at the nodes. -/
inductive Derivation where
  | leaf (token : Token)
  | node (rule : Nat) (parts : List Derivation)

namespace Derivation

structure Frame where
  state : Nat
  tree : Derivation

/-- The state on top of a stack. -/
def topState : List Frame → Nat
  | [] => 0
  | frame :: _ => frame.state

/-- Replaces the parts of a rule on top of the stack by one derivation. -/
@[irreducible] def reduce? (rule : Nat) (stack : List Frame) : Option (List Frame) := do
  let r ← Rule.all[rule]?
  let count := r.body.length
  let below := stack.drop count
  let state ← Automaton.goto? (topState below) r.head
  if count ≤ stack.length then
    some (⟨state, .node rule ((stack.take count).reverse.map Frame.tree)⟩ :: below)
  else none

/-- The outcome of giving a token to the automaton. A refusal keeps the reductions made on the
way; `broken` would mean that the table does not fit the grammar. -/
inductive Feed where
  | shifted (stack : List Frame)
  | accepted (tree : Derivation)
  | refused (stack : List Frame)
  | broken

/-- One move of the automaton on a token; after a reduction it goes on by `again`. -/
def feedOnce (again : List Frame → Feed) (token : Token) (stack : List Frame) : Feed :=
  if topState stack = Automaton.acceptState && token.terminal = .finish then
    match stack with
    | frame :: _ => .accepted frame.tree
    | [] => .broken
  else match Automaton.action? (topState stack) token.terminal with
    | none => .refused stack
    | some (.shift next) => .shifted (⟨next, .leaf token⟩ :: stack)
    | some (.reduce rule) =>
      match reduce? rule stack with
      | some stack => again stack
      | none => .broken

/-- Reduces until the token can be shifted, refused or accepted. -/
def feedUpTo (token : Token) : Nat → List Frame → Feed
  | 0, _ => .broken
  | fuel + 1, stack => feedOnce (feedUpTo token fuel) token stack

/-- Gives a token to the automaton. Between two reductions that shorten the stack there are fewer
than a hundred others. -/
@[irreducible] def feed (token : Token) (stack : List Frame) : Feed :=
  feedUpTo token (100 * (stack.length + 2)) stack

end Derivation

end Debundle
