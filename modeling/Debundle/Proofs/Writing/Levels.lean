import Debundle.Proofs.Writing.Phrases

/-!
# Levels of expressions

The grammar has a nonterminal for each degree of tightness, from sequences down to literals, and a
second one for expressions with which a statement may begin. An expression of one level is also one
of every looser level. Chains of operators are kept apart operand by operand, since precedence is
no matter of the grammar.
-/
namespace Debundle

open Build Chain Piece

inductive Level where
  | expression | assignment | conditional
  /-- A chain whose operators bind at least as tight as a number says. -/
  | binary (power : Nat)
  | unary | update | call | member | primary
  deriving DecidableEq

namespace Level

/-- How tight a level is. -/
def rank : Level → Nat
  | expression => 0
  | assignment => 1
  | conditional => 2
  | binary _ => 3
  | unary => 4
  | update => 5
  | call => 6
  | member => 7
  | primary => 8

/-- The nonterminal of a level; `lead` asks for one that may begin a statement. -/
def symbol (lead : Bool) : Level → Nonterminal
  | expression => if lead then .expressionLead else .expression
  | assignment => if lead then .assignmentLead else .assignment
  | conditional => if lead then .conditionalLead else .conditional
  | binary _ => if lead then .binaryLead else .binary
  | unary => if lead then .unaryLead else .unary
  | update => if lead then .updateLead else .update
  | call => if lead then .callLead else .call
  | member => if lead then .memberLead else .member
  | primary => if lead then .primaryLead else .primary

end Level

open Level

/-- Pieces are a chain of operators whose tree is `v`. -/
def Sums (strict lead : Bool) (m : Nat) (v : Node) (pieces : List Piece)
    (refused : List Terminal) : Prop :=
  ∃ tokens x ps, Lays false false pieces tokens ∧ Grown m v x ps ∧
    ∀ after ∉ refused, Chained (unary.symbol lead) x ps tokens after ∧ Apart strict tokens after

/-- Pieces are an expression of a level. -/
def Speaks (strict lead : Bool) (v : Node) (pieces : List Piece) (refused : List Terminal) :
    Level → Prop
  | .binary m => Sums strict lead m v pieces refused
  | l => Phrase strict false (.nonterminal (l.symbol lead)) (.node v) pieces refused

namespace Speaks

variable {strict lead : Bool} {v : Node} {pieces : List Piece} {refused : List Terminal} {l : Level}

theorem toMember (h : Speaks strict lead v pieces refused l) (hl : 7 ≤ l.rank) :
    Phrase strict false (.nonterminal (member.symbol lead)) (.node v) pieces refused := by
  cases l with
  | member => exact h
  | primary =>
    exact Phrase.pass (n := primary.symbol lead) h (by cases lead <;> rfl)
  | _ => simp [rank] at hl

/-- The nonterminal of what can be assigned to. -/
def target (lead : Bool) : Nonterminal :=
  if lead then .targetLead else .target

def construction (lead : Bool) : Nonterminal :=
  if lead then .constructionLead else .construction

theorem toTarget (h : Speaks strict lead v pieces refused l) (hl : 6 ≤ l.rank) :
    Phrase strict false (.nonterminal (target lead)) (.node v) pieces refused := by
  by_cases hcall : l = .call
  · subst hcall
    exact Phrase.pass (n := call.symbol lead) h (by cases lead <;> rfl)
  · have hmember : 7 ≤ l.rank := by
      cases l <;> simp_all [rank]
    exact ((h.toMember hmember).pass (m := construction lead) (by cases lead <;> rfl)).pass
      (by cases lead <;> rfl)

theorem toUpdate (h : Speaks strict lead v pieces refused l) (hl : 5 ≤ l.rank) :
    Phrase strict false (.nonterminal (update.symbol lead)) (.node v) pieces refused := by
  by_cases hu : l = .update
  · subst hu
    exact h
  · exact (h.toTarget (by cases l <;> simp_all [rank])).pass (by cases lead <;> rfl)

theorem toUnary (h : Speaks strict lead v pieces refused l) (hl : 4 ≤ l.rank) :
    Phrase strict false (.nonterminal (unary.symbol lead)) (.node v) pieces refused := by
  by_cases hu : l = .unary
  · subst hu
    exact h
  · exact (h.toUpdate (by cases l <;> simp_all [rank])).pass (by cases lead <;> rfl)

theorem toChain (h : Speaks strict lead v pieces refused l) (hl : 3 ≤ l.rank) {m : Nat}
    (hm : ∀ k, l = .binary k → m ≤ k) : Sums strict lead m v pieces refused := by
  by_cases hu : 4 ≤ l.rank
  · obtain ⟨tokens, hlays, htokens⟩ := h.toUnary hu
    refine ⟨tokens, v, [], hlays, .operand m v, fun after hafter => ?_⟩
    obtain ⟨hforms, hapart⟩ := htokens after hafter
    exact ⟨.operand hforms, hapart⟩
  · cases l with
    | binary k =>
      obtain ⟨tokens, x, ps, hlays, hgrown, htokens⟩ := h
      exact ⟨tokens, x, ps, hlays, hgrown.mono (hm k rfl), htokens⟩
    | _ => simp [rank] at hl hu

theorem toBinary (h : Speaks strict lead v pieces refused l) (hl : 3 ≤ l.rank) :
    Phrase strict false (.nonterminal ((binary 0).symbol lead)) (.node v) pieces refused := by
  obtain ⟨tokens, x, ps, hlays, hgrown, htokens⟩ := h.toChain hl (m := 0) fun k _ => Nat.zero_le k
  refine ⟨tokens, hlays, fun after hafter => ?_⟩
  obtain ⟨hchain, hapart⟩ := htokens after hafter
  rw [← fold_grown hgrown]
  cases lead with
  | true => exact ⟨hchain.formsLead, hapart⟩
  | false => exact ⟨hchain.forms, hapart⟩

theorem toConditional (h : Speaks strict lead v pieces refused l) (hl : 2 ≤ l.rank) :
    Phrase strict false (.nonterminal (conditional.symbol lead)) (.node v) pieces refused := by
  by_cases hu : l = .conditional
  · subst hu
    exact h
  · exact (h.toBinary (by cases l <;> simp_all [rank])).pass (by cases lead <;> rfl)

theorem toAssignment (h : Speaks strict lead v pieces refused l) (hl : 1 ≤ l.rank) :
    Phrase strict false (.nonterminal (assignment.symbol lead)) (.node v) pieces refused := by
  by_cases hu : l = .assignment
  · subst hu
    exact h
  · exact (h.toConditional (by cases l <;> simp_all [rank])).pass (by cases lead <;> rfl)

theorem toExpression (h : Speaks strict lead v pieces refused l) :
    Phrase strict false (.nonterminal (expression.symbol lead)) (.node v) pieces refused := by
  by_cases hu : l = .expression
  · subst hu
    exact h
  · exact (h.toAssignment (by cases l <;> simp_all [rank])).pass (by cases lead <;> rfl)

end Speaks

end Debundle
