import Debundle.Proofs.Tree.Fold
import Debundle.Reading.Build

/-!
# Trees of operator chains

`Chain.Grown m t x rest` says that `t` joins the operands of the flat chain `x`, `rest` by its
operators: every operator binds at least as tight as `m`, the operators to the left of a join bind
at least as tight as it does, and those to its right tighter. A chain has one such tree, and that
is its fold (`Chain.fold_eq_iff`).
-/
namespace Debundle.Chain

/-- How tight an operator binds; what is no operator binds loosest. -/
def power (operator : String) : Nat :=
  (precedence? operator).getD 0

inductive Grown : Nat → Node → Node → List (String × Node) → Prop
  | operand (m : Nat) (x : Node) : Grown m x x []
  | join {m : Nat} {operator : String} {l r x y : Node} {before after : List (String × Node)}
      (tight : m ≤ power operator) (left : Grown (power operator) l x before)
      (right : Grown (power operator + 1) r y after) :
      Grown m (.mk l.line (.binary operator l r)) x (before ++ (operator, y) :: after)

namespace Grown

variable {m k : Nat} {t x : Node} {rest : List (String × Node)}

theorem mono (h : Grown m t x rest) (hk : k ≤ m) : Grown k t x rest := by
  cases h with
  | operand => exact .operand k _
  | join tight left right => exact .join (Nat.le_trans hk tight) left right

theorem le_power (h : Grown m t x rest) : ∀ p ∈ rest, m ≤ power p.1 := by
  induction h with
  | operand => nofun
  | join tight left right ihl ihr =>
    intro p hp
    obtain hp | hp := List.mem_append.1 hp
    · exact Nat.le_trans tight (ihl p hp)
    · obtain rfl | hp := List.mem_cons.1 hp
      · exact tight
      · exact Nat.le_trans tight (Nat.le_of_succ_le (ihr p hp))

theorem count_lt_binary (line : Option Nat) (operator : String) (l r : Node) :
    l.count < (Node.mk line (.binary operator l r)).count :=
  Node.count_lt_of_mem (by simp [Form.children])

theorem count_le (h : Grown m t x rest) : x.count ≤ t.count := by
  induction h with
  | operand => exact Nat.le_refl _
  | join tight left right ihl ihr =>
    exact Nat.le_of_lt (Nat.lt_of_le_of_lt ihl (count_lt_binary _ _ _ _))

theorem eq_nil_of_self (h : Grown m x x rest) : rest = [] := by
  generalize ht : x = t at h
  cases h with
  | operand => rfl
  | join tight left right =>
    exact absurd left.count_le (Nat.not_le.2 (count_lt_binary _ _ _ _))

end Grown

theorem joinTighter_cons (coming operator : String) (operands : List Node)
    (operators : List String) :
    joinTighter coming operands (operator :: operators) =
      if power coming ≤ power operator then
        joinTighter coming (join operands (operator :: operators)).1 operators
      else (operands, operator :: operators) := rfl

theorem joinTighter_of_lt {coming : String} {operands : List Node} {operators : List String}
    (h : ∀ o ∈ operators.head?, power o < power coming) :
    joinTighter coming operands operators = (operands, operators) := by
  cases operators with
  | nil => rfl
  | cons o operators => rw [joinTighter_cons, if_neg (Nat.not_le.2 (h o rfl))]

theorem foldFrom_grown {m : Nat} {t x : Node} {rest : List (String × Node)}
    (h : Grown m t x rest) {operands : List Node} {operators : List String}
    (hbase : ∀ o ∈ operators.head?, power o < m) {tail : List (String × Node)}
    (htail : ∀ p ∈ tail.head?, power p.1 ≤ m) :
    foldFrom (x :: operands) operators (rest ++ tail) = foldFrom (t :: operands) operators tail := by
  induction h generalizing operands operators tail with
  | operand => rfl
  | @join m operator l r x y before after tight left right ihl ihr =>
    have hlow : ∀ o ∈ operators.head?, power o < power operator := fun o ho =>
      Nat.lt_of_lt_of_le (hbase o ho) tight
    rw [List.append_assoc, List.cons_append, ihl hlow (by simp), foldFrom, joinTighter_of_lt hlow]
    dsimp only
    rw [ihr (by simp) fun p hp =>
      Nat.le_trans (htail p hp) (Nat.le_trans tight (Nat.le_succ _))]
    cases tail with
    | nil => rfl
    | cons p tail =>
      have hp : power p.1 ≤ power operator := Nat.le_trans (htail p rfl) tight
      rw [foldFrom, joinTighter_cons, if_pos hp]
      rfl

theorem fold_grown {m : Nat} {t x : Node} {rest : List (String × Node)}
    (h : Grown m t x rest) : fold x rest = t := by
  have := @foldFrom_grown m t x rest h [] [] nofun [] nofun
  rwa [List.append_nil] at this

/-- The last of the loosest operators of a chain. -/
theorem exists_loosest {rest : List (String × Node)} (h : rest ≠ []) :
    ∃ before p after, rest = before ++ p :: after ∧ (∀ q ∈ before, power p.1 ≤ power q.1) ∧
      ∀ q ∈ after, power p.1 < power q.1 := by
  induction rest with
  | nil => exact absurd rfl h
  | cons q rest ih =>
    obtain rfl | hne := eq_or_ne rest []
    · exact ⟨[], q, [], rfl, nofun, nofun⟩
    · obtain ⟨before, p, after, rfl, hbefore, hafter⟩ := ih hne
      by_cases hp : power p.1 ≤ power q.1
      · refine ⟨q :: before, p, after, rfl, fun z hz => ?_, hafter⟩
        obtain rfl | hz := List.mem_cons.1 hz
        · exact hp
        · exact hbefore z hz
      · have hp := Nat.lt_of_not_le hp
        refine ⟨[], q, _, rfl, nofun, fun z hz => ?_⟩
        obtain hz | hz := List.mem_append.1 hz
        · exact Nat.lt_of_lt_of_le hp (hbefore z hz)
        · obtain rfl | hz := List.mem_cons.1 hz
          · exact hp
          · exact Nat.lt_trans hp (hafter z hz)

theorem exists_grown (m : Nat) (x : Node) (rest : List (String × Node))
    (h : ∀ p ∈ rest, m ≤ power p.1) : ∃ t, Grown m t x rest := by
  induction hn : rest.length using Nat.strongRecOn generalizing m x rest with
  | _ n ih =>
    obtain rfl | hne := eq_or_ne rest []
    · exact ⟨x, .operand m x⟩
    · obtain ⟨before, ⟨operator, y⟩, after, rfl, hbefore, hafter⟩ := exists_loosest hne
      simp only [List.length_append, List.length_cons] at hn
      obtain ⟨l, hl⟩ := ih before.length (by omega) (power operator) x before hbefore rfl
      obtain ⟨r, hr⟩ := ih after.length (by omega) (power operator + 1) y after hafter rfl
      exact ⟨_, .join (h (operator, y) (by simp)) hl hr⟩

theorem fold_eq_iff {x t : Node} {rest : List (String × Node)} :
    fold x rest = t ↔ Grown 0 t x rest := by
  refine ⟨?_, fold_grown⟩
  rintro rfl
  obtain ⟨t, ht⟩ := exists_grown 0 x rest fun _ _ => Nat.zero_le _
  rwa [fold_grown ht]

/-- An operand before a chain stands alone to the left of the whole chain exactly if the operator
between them is looser than all of the chain. -/
theorem fold_cons_eq_iff {operator : String} {x y : Node} {rest : List (String × Node)} :
    fold x ((operator, y) :: rest) = .mk x.line (.binary operator x (fold y rest)) ↔
      ∀ p ∈ rest, power operator < power p.1 := by
  constructor
  · intro h
    generalize ht : Node.mk x.line (.binary operator x (fold y rest)) = t at h
    generalize hc : (operator, y) :: rest = chain at h
    cases fold_eq_iff.1 h with
    | operand => cases hc
    | @join _ operator' l r _ y' before after tight left right =>
      obtain ⟨-, ⟨⟩⟩ := Node.mk.inj ht
      obtain rfl := left.eq_nil_of_self
      cases hc
      exact fun p hp => right.le_power p hp
  · intro h
    obtain ⟨r, hr⟩ := exists_grown (power operator + 1) y rest h
    rw [fold_grown hr]
    exact fold_grown (.join (Nat.zero_le _) (.operand _ x) hr)

end Debundle.Chain
