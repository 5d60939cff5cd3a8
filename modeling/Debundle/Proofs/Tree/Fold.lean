import Mathlib
import Debundle.Tree.Node

/-!
# Recursion and induction over trees

The laws of `Form.map`, the equations of the recursions that are built on `Node.foldUp`, and
induction over trees: what holds of a node if it holds of its children holds of every node.
-/
namespace Debundle

namespace Form

variable {α β γ : Type}

attribute [local simp] map children

@[simp] theorem map_id (form : Form α) : form.map (fun a => a) = form := by
  cases form <;> simp

@[simp] theorem map_map (form : Form α) (f : α → β) (g : β → γ) :
    (form.map f).map g = form.map fun a => g (f a) := by
  cases form <;> simp [Function.comp_def]

@[simp] theorem children_map (form : Form α) (f : α → β) :
    (form.map f).children = form.children.map f := by
  cases form <;> simp [Option.toList_map]

theorem map_congr {form : Form α} {f g : α → β} (h : ∀ a ∈ form.children, f a = g a) :
    form.map f = form.map g := by
  have list : ∀ {items : List α}, (∀ a ∈ items, f a = g a) → items.map f = items.map g :=
    fun h => List.map_congr_left h
  have option : ∀ {item : Option α}, (∀ a ∈ item.toList, f a = g a) → item.map f = item.map g := by
    intro item h
    cases item with
    | none => rfl
    | some a => simp [h a (by simp)]
  cases form <;> simp only [children, List.mem_append, List.mem_cons, or_imp, forall_and,
    List.not_mem_nil, false_imp_iff, implies_true, forall_eq] at h <;>
    simp_all

end Form

namespace Node

variable {β : Type}

theorem foldChildren_mk (step : Node → List β → β) (line : Option Nat) (form : Form Node) :
    foldChildren step (mk line form) =
      step (mk line form) (form.children.map (foldChildren step)) := by
  rw [foldChildren, foldUp_mk]
  simp [Function.comp_def]

theorem walk_mk (prune : Node → Bool) (line : Option Nat) (form : Form Node) :
    walk prune (mk line form) =
      mk line form ::
        if prune (mk line form) then [] else (form.children.map (walk prune)).flatten := by
  rw [walk, foldChildren_mk]

theorem preorder_mk (line : Option Nat) (form : Form Node) :
    preorder (mk line form) = mk line form :: (form.children.map preorder).flatten := by
  rw [preorder, walk_mk]
  rfl

theorem mem_preorder_self (n : Node) : n ∈ n.preorder := by
  obtain ⟨line, form⟩ := n
  rw [preorder_mk]
  exact .head _

theorem mem_preorder_of_child {line : Option Nat} {form : Form Node} {n m : Node}
    (hn : n ∈ form.children) (hm : m ∈ n.preorder) : m ∈ (mk line form).preorder := by
  rw [preorder_mk]
  exact .tail _ (List.mem_flatten.2 ⟨_, List.mem_map_of_mem hn, hm⟩)

/-- The number of nodes of a tree. -/
def count : Node → Nat :=
  foldChildren fun _ below => 1 + below.sum

theorem count_lt_of_mem {line : Option Nat} {form : Form Node} {n : Node}
    (h : n ∈ form.children) : n.count < (mk line form).count := by
  have hle : n.count ≤ (form.children.map count).sum :=
    List.le_sum_of_mem (List.mem_map_of_mem h)
  rw [count, foldChildren_mk]
  exact Nat.lt_one_add_iff.2 hle

theorem induct {motive : Node → Prop}
    (step : ∀ line form, (∀ n ∈ form.children, motive n) → motive (mk line form)) (n : Node) :
    motive n := by
  induction hc : n.count using Nat.strongRecOn generalizing n with
  | _ k ih =>
    obtain ⟨line, form⟩ := n
    exact step line form fun m hm => ih _ (hc ▸ count_lt_of_mem hm) m rfl

/-- What passes from every node to its children holds in the whole tree. -/
theorem of_mem_preorder {Q : Node → Prop} (hQ : ∀ {n}, Q n → ∀ m ∈ n.form.children, Q m)
    {n m : Node} (h : Q n) (hm : m ∈ n.preorder) : Q m := by
  induction n using Node.induct with
  | step line form ih =>
    rw [preorder_mk, List.mem_cons, List.mem_flatten] at hm
    obtain rfl | ⟨below, hb, hm⟩ := hm
    · exact h
    · obtain ⟨k, hk, rfl⟩ := List.mem_map.1 hb
      exact ih k hk (hQ h k hk) hm

end Node

end Debundle
