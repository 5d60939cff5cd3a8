import Debundle.Proofs.Reading.Soundness
import Debundle.Reading.Parse

/-!
# What rules make of their parts

The equations of the functions that take the nodes out of lists of values, and what it takes that a
derivation has a value.
-/
namespace Debundle

theorem bind_eq_ok_iff {ε α β : Type} {x : Except ε α} {f : α → Except ε β} {b : β} :
    (x >>= f) = .ok b ↔ ∃ a, x = .ok a ∧ f a = .ok b := by
  cases x with
  | error e => exact ⟨nofun, fun ⟨a, h, _⟩ => nomatch h⟩
  | ok a => exact ⟨fun h => ⟨a, rfl, h⟩, fun ⟨a', h, h'⟩ => by cases h; exact h'⟩

theorem eq_ok_of_toOption {ε α : Type} {r : Except ε α} {a : α} (h : r.toOption = some a) :
    r = .ok a := by
  cases r with
  | ok b => exact congrArg Except.ok (Option.some.inj h)
  | error e => cases h

namespace Build

@[simp] theorem items_list (vs : List Value) : (Value.list vs).items = vs := rfl

@[simp] theorem items_node (n : Node) : (Value.node n).items = [.node n] := rfl

@[simp] theorem items_word (w : String) : (Value.word w).items = [.word w] := rfl

@[simp] theorem gather_nil : gather [] = [] := rfl

@[simp] theorem gather_cons (v : Value) (vs : List Value) :
    gather (v :: vs) = v.items ++ gather vs := by
  simp [gather]

@[simp] theorem nodes_nil : nodes [] = [] := rfl

@[simp] theorem nodes_node (n : Node) (vs : List Value) :
    nodes (.node n :: vs) = n :: nodes vs := rfl

@[simp] theorem nodes_token (t : Token) (vs : List Value) : nodes (.token t :: vs) = nodes vs := rfl

@[simp] theorem nodes_append (vs ws : List Value) : nodes (vs ++ ws) = nodes vs ++ nodes ws := by
  simp [nodes]

@[simp] theorem nodes_map_node (ns : List Node) : nodes (ns.map .node) = ns := by
  simp [nodes, List.filterMap_map, Function.comp_def, Value.node?]

@[simp] theorem symbols_map_token (role : Role) (ts : List Token) :
    symbols role (ts.map .token) = ts.map (symbol role) := by
  simp [symbols, List.filterMap_map]

/-- Tokens that only mark a rule. -/
def isMark (t : Terminal) : Bool :=
  !(t ∈ [.name, .string, .number, .regex, .kwVar])

theorem items_token (t : Token) :
    (Value.token t).items = if isMark t.terminal then [] else [.token t] := rfl

@[simp] theorem nodesOf_nil : nodesOf [] = [] := rfl

@[simp] theorem nodesOf_token (t : Token) (vs : List Value) :
    nodesOf (.token t :: vs) = nodesOf vs := by
  rw [nodesOf, gather_cons, nodes_append, items_token]
  split <;> rfl

@[simp] theorem nodesOf_node (n : Node) (vs : List Value) :
    nodesOf (.node n :: vs) = n :: nodesOf vs := rfl

@[simp] theorem nodesOf_list (ws vs : List Value) :
    nodesOf (.list ws :: vs) = nodes ws ++ nodesOf vs := by
  rw [nodesOf, gather_cons, nodes_append]
  rfl

theorem values_eq_ok_iff {parts : List Derivation} {ps : List (Value × Option Token)} :
    values parts = .ok ps ↔ List.Forall₂ (fun d p => value d = .ok p) parts ps := by
  induction parts generalizing ps with
  | nil =>
    rw [values, List.forall₂_nil_left_iff]
    exact ⟨fun h => by cases h; rfl, fun h => h ▸ rfl⟩
  | cons d parts ih =>
    rw [values, List.forall₂_cons_left_iff]
    constructor
    · intro h
      obtain ⟨p, hp, h⟩ := bind_eq_ok_iff.1 h
      obtain ⟨qs, hqs, h⟩ := bind_eq_ok_iff.1 h
      cases h
      exact ⟨p, qs, hp, ih.1 hqs, rfl⟩
    · rintro ⟨p, qs, hp, hqs, rfl⟩
      exact bind_eq_ok_iff.2 ⟨p, hp, bind_eq_ok_iff.2 ⟨qs, ih.2 hqs, rfl⟩⟩

theorem value_node_eq_ok_iff {i : Nat} {r : Rule} {parts : List Derivation} {v : Value}
    {first : Option Token} (hr : Rule.all[i]? = some r) :
    value (.node i parts) = .ok (v, first) ↔
      ∃ ps, List.Forall₂ (fun d p => value d = .ok p) parts ps ∧
        first = ps.findSome? Prod.snd ∧ apply r.label first (ps.map Prod.fst) = .ok v := by
  rw [value]
  constructor
  · intro h
    obtain ⟨ps, hps, h⟩ := bind_eq_ok_iff.1 h
    simp only [hr] at h
    obtain ⟨w, hw, h⟩ := bind_eq_ok_iff.1 h
    cases h
    exact ⟨ps, values_eq_ok_iff.1 hps, rfl, hw⟩
  · rintro ⟨ps, hps, rfl, hv⟩
    refine bind_eq_ok_iff.2 ⟨ps, values_eq_ok_iff.2 hps, ?_⟩
    simp only [hr]
    exact bind_eq_ok_iff.2 ⟨v, hv, rfl⟩

theorem tree_eq_ok_iff {d : Derivation} {n : Node} :
    tree d = .ok n ↔ ∃ first, value d = .ok (.node n, first) := by
  rw [tree]
  constructor
  · intro h
    obtain ⟨⟨v, first⟩, hv, h⟩ := bind_eq_ok_iff.1 h
    cases v with
    | node m =>
      cases h
      exact ⟨first, hv⟩
    | token | word | list => cases h
  · rintro ⟨first, hv⟩
    exact bind_eq_ok_iff.2 ⟨_, hv, rfl⟩

end Build

end Debundle
