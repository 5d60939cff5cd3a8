import Debundle.Proofs.Tree.Shape

/-!
# Positions in trees

A position leads from the root of a tree down to a node, by the numbers of the children on the way
(`Node.at?`), and a tree lists its positions in the order of a walk (`Node.positions`). What a node is
without its children is its label.
-/
namespace Debundle

namespace Form

variable {α β : Type}

/-- A form without its children. -/
def label (form : Form α) : Form Unit :=
  form.map fun _ => ()

@[simp] theorem label_map (form : Form α) (f : α → β) : (form.map f).label = form.label :=
  map_map form f _

theorem of_mem_zip_children {form : Form α} {f : α → β} {p : α × β}
    (h : p ∈ form.children.zip (form.map f).children) : p.1 ∈ form.children ∧ p.2 = f p.1 := by
  have hzip : form.children.zip (form.children.map f) = form.children.map fun a => (a, f a) := by
    simpa using List.zip_map' (f := id) (g := f) (l := form.children)
  rw [children_map, hzip] at h
  obtain ⟨a, ha, rfl⟩ := List.mem_map.1 h
  exact ⟨ha, rfl⟩

end Form

namespace Node

/-- The node at a position. -/
def at? : Node → List Nat → Option Node
  | n, [] => some n
  | n, i :: rest => n.form.children[i]?.bind (at? · rest)

@[simp] theorem at?_nil (n : Node) : n.at? [] = some n := rfl

theorem at?_cons (n : Node) (i : Nat) (rest : List Nat) :
    n.at? (i :: rest) = n.form.children[i]?.bind (at? · rest) := rfl

theorem at?_append (n : Node) (p q : List Nat) : n.at? (p ++ q) = (n.at? p).bind (at? · q) := by
  induction p generalizing n with
  | nil => rfl
  | cons i p ih =>
    rw [List.cons_append, at?_cons, at?_cons, Option.bind_assoc]
    exact congrArg _ (funext fun child => ih child)

theorem at?_cases {line : Option Nat} {form : Form Node} {p : List Nat} {m : Node}
    (h : (mk line form).at? p = some m) :
    p = [] ∧ m = mk line form ∨
      ∃ i rest child, p = i :: rest ∧ form.children[i]? = some child ∧ child.at? rest = some m := by
  cases p with
  | nil =>
    cases h
    exact .inl ⟨rfl, rfl⟩
  | cons i rest =>
    obtain ⟨child, hchild, hm⟩ := Option.bind_eq_some_iff.1 h
    exact .inr ⟨i, rest, child, rfl, hchild, hm⟩

theorem preorder_eq (n : Node) : n.preorder = n :: (n.form.children.map preorder).flatten := by
  obtain ⟨line, form⟩ := n
  exact preorder_mk line form

theorem mem_preorder_of_at? {n m : Node} {p : List Nat} (h : n.at? p = some m) :
    m ∈ n.preorder := by
  induction p generalizing n with
  | nil =>
    cases h
    exact mem_preorder_self _
  | cons i p ih =>
    obtain ⟨line, form⟩ := n
    obtain ⟨child, hchild, hm⟩ := Option.bind_eq_some_iff.1 h
    exact mem_preorder_of_child (List.mem_of_getElem? hchild) (ih hm)

/-- The name at a position. -/
def symbol? (n : Node) (p : List Nat) : Option Symbol :=
  match n.at? p with
  | some (mk _ (.symbol s)) => some s
  | _ => none

theorem symbol?_eq_some_iff {n : Node} {p : List Nat} {s : Symbol} :
    n.symbol? p = some s ↔ ∃ line, n.at? p = some (mk line (.symbol s)) := by
  unfold symbol?
  constructor
  · intro h
    split at h
    · rename_i line _ hat
      cases h
      exact ⟨line, hat⟩
    · cases h
  · rintro ⟨line, h⟩
    rw [h]

theorem symbol?_append {n m : Node} {p : List Nat} (h : n.at? p = some m) (q : List Nat) :
    n.symbol? (p ++ q) = m.symbol? q := by
  rw [symbol?, at?_append, h]
  rfl

theorem symbol?_cons (line : Option Nat) {form : Form Node} {i : Nat} {child : Node}
    (h : form.children[i]? = some child) (p : List Nat) :
    (mk line form).symbol? (i :: p) = child.symbol? p := by
  rw [symbol?, at?_cons, Node.form, h]
  rfl

/-- The positions of a tree, from the top down. -/
def positions : Node → List (List Nat) :=
  foldChildren fun _ below => [] :: (below.mapIdx fun i ps => ps.map (i :: ·)).flatten

theorem positions_mk (line : Option Nat) (form : Form Node) :
    (mk line form).positions =
      [] :: (form.children.mapIdx fun i n => n.positions.map (i :: ·)).flatten := by
  rw [positions, foldChildren_mk]
  refine congrArg _ (congrArg _ (List.ext_getElem? fun i => ?_))
  rw [List.getElem?_mapIdx, List.getElem?_mapIdx, List.getElem?_map, Option.map_map]
  rfl

theorem mem_positions_iff {n : Node} {p : List Nat} :
    p ∈ n.positions ↔ (n.at? p).isSome = true := by
  induction n using Node.induct generalizing p with
  | step line form ih =>
    rw [positions_mk]
    cases p with
    | nil => simp
    | cons i p =>
      have hchild : i :: p ∈ (form.children.mapIdx fun i n => n.positions.map (i :: ·)).flatten ↔
          ∃ child, form.children[i]? = some child ∧ p ∈ child.positions := by
        simp only [List.mem_flatten, List.mem_mapIdx]
        constructor
        · rintro ⟨_, ⟨j, hj, rfl⟩, hmem⟩
          obtain ⟨q, hq, heq⟩ := List.mem_map.1 hmem
          obtain ⟨rfl, rfl⟩ := List.cons.inj heq
          exact ⟨_, List.getElem?_eq_getElem hj, hq⟩
        · rintro ⟨child, hchild, hp⟩
          obtain ⟨hi, rfl⟩ := List.getElem?_eq_some_iff.1 hchild
          exact ⟨_, ⟨i, hi, rfl⟩, List.mem_map_of_mem hp⟩
      rw [List.mem_cons, hchild, at?_cons, Option.isSome_bind, Node.form]
      cases hget : form.children[i]? with
      | none => simp
      | some child => simpa using ih child (List.mem_of_getElem? hget)

/-- The positions are in the order of a walk: a node before what is below it, and what is below one
child before what is below the next. -/
theorem pairwise_positions (n : Node) : n.positions.Pairwise (· < ·) := by
  induction n using Node.induct with
  | step line form ih =>
    rw [positions_mk, List.pairwise_cons, List.pairwise_flatten]
    refine ⟨?_, ?_, ?_⟩
    · intro p hp
      obtain ⟨below, hbelow, hp⟩ := List.mem_flatten.1 hp
      obtain ⟨i, hi, rfl⟩ := List.mem_mapIdx.1 hbelow
      obtain ⟨q, -, rfl⟩ := List.mem_map.1 hp
      exact .nil
    · intro below hbelow
      obtain ⟨i, hi, rfl⟩ := List.mem_mapIdx.1 hbelow
      exact List.pairwise_map.2 ((ih _ (List.getElem_mem hi)).imp .cons)
    · refine List.pairwise_iff_getElem.2 fun i j hi hj hij p hp q hq => ?_
      rw [List.getElem_mapIdx, List.mem_map] at hp hq
      obtain ⟨p, -, rfl⟩ := hp
      obtain ⟨q, -, rfl⟩ := hq
      exact .rel hij

theorem filterMap_at?_positions (n : Node) : n.positions.filterMap n.at? = n.preorder := by
  induction n using Node.induct with
  | step line form ih =>
    rw [positions_mk, preorder_mk, List.filterMap_cons_some (at?_nil _), List.filterMap_flatten]
    refine congrArg _ (congrArg _ (List.ext_getElem? fun i => ?_))
    rw [List.getElem?_map, List.getElem?_mapIdx, List.getElem?_map, Option.map_map]
    cases hget : form.children[i]? with
    | none => rfl
    | some child =>
      rw [Option.map_some, Option.map_some, ← ih child (List.mem_of_getElem? hget)]
      refine congrArg some ?_
      rw [Function.comp_apply, List.filterMap_map]
      refine List.filterMap_congr fun p _ => ?_
      rw [Function.comp_apply, at?_cons, Node.form, hget]
      rfl

/-! ## Changing names -/

theorem mapSymbols_symbol (f : Symbol → Symbol) (line : Option Nat) (s : Symbol) :
    mapSymbols f (mk line (.symbol s)) = mk line (.symbol (f s)) := by
  rw [mapSymbols, foldUp_mk]
  rfl

theorem mapSymbols_mk (f : Symbol → Symbol) (line : Option Nat) {form : Form Node}
    (h : ∀ s, form ≠ .symbol s) :
    mapSymbols f (mk line form) = mk line (form.map (mapSymbols f)) := by
  rw [mapSymbols, foldUp_mk, ← mapSymbols]
  cases form with
  | symbol s => exact absurd rfl (h s)
  | _ => simp only [Form.map, List.map_map, Option.map_map, Function.comp_def]

theorem eq_symbol_of_mapSymbols {f : Symbol → Symbol} {n : Node} {line : Option Nat} {s : Symbol}
    (h : mapSymbols f n = mk line (.symbol s)) : ∃ s₀, n = mk line (.symbol s₀) ∧ s = f s₀ := by
  obtain ⟨l, form⟩ := n
  by_cases hs : ∃ s₀, form = .symbol s₀
  · obtain ⟨s₀, rfl⟩ := hs
    rw [mapSymbols_symbol] at h
    cases h
    exact ⟨s₀, rfl, rfl⟩
  · rw [mapSymbols_mk f l fun s₀ heq => hs ⟨s₀, heq⟩] at h
    obtain ⟨-, h⟩ := Node.mk.inj h
    cases form with
    | symbol s₀ => exact absurd ⟨s₀, rfl⟩ hs
    | _ => cases h

theorem mapSymbols_eq (f : Symbol → Symbol) (line : Option Nat) (form : Form Node) :
    ∃ form', mapSymbols f (mk line form) = mk line form' ∧
      form'.children = form.children.map (mapSymbols f) := by
  by_cases hs : ∃ s, form = .symbol s
  · obtain ⟨s, rfl⟩ := hs
    exact ⟨_, mapSymbols_symbol f line s, rfl⟩
  · exact ⟨_, mapSymbols_mk f line fun s h => hs ⟨s, h⟩, Form.children_map ..⟩

theorem at?_mapSymbols (f : Symbol → Symbol) (n : Node) (p : List Nat) :
    (n.mapSymbols f).at? p = (n.at? p).map (mapSymbols f) := by
  induction p generalizing n with
  | nil => rfl
  | cons i p ih =>
    obtain ⟨line, form⟩ := n
    obtain ⟨form', heq, hchildren⟩ := mapSymbols_eq f line form
    have hchild : form'.children[i]? = form.children[i]?.map (mapSymbols f) := by
      rw [hchildren, List.getElem?_map]
    rw [heq, at?_cons, at?_cons, Node.form, Node.form, hchild]
    cases form.children[i]? with
    | none => rfl
    | some child => exact ih child

theorem symbol?_mapSymbols (f : Symbol → Symbol) (n : Node) (p : List Nat) :
    (n.mapSymbols f).symbol? p = (n.symbol? p).map f := by
  refine Option.ext fun u => ?_
  rw [symbol?_eq_some_iff, Option.map_eq_some_iff, at?_mapSymbols]
  constructor
  · rintro ⟨line, hu⟩
    obtain ⟨m, hm, hu⟩ := Option.map_eq_some_iff.1 hu
    obtain ⟨s, rfl, rfl⟩ := eq_symbol_of_mapSymbols hu
    exact ⟨s, symbol?_eq_some_iff.2 ⟨line, hm⟩, rfl⟩
  · rintro ⟨s, hs, rfl⟩
    obtain ⟨line, hs⟩ := symbol?_eq_some_iff.1 hs
    exact ⟨line, by rw [hs, Option.map_some, mapSymbols_symbol]⟩

theorem mapSymbols_mapSymbols {f g h : Symbol → Symbol} {n : Node}
    (heq : ∀ line s, mk line (.symbol s) ∈ n.preorder → g (f s) = h s) :
    (n.mapSymbols f).mapSymbols g = n.mapSymbols h := by
  induction n using Node.induct with
  | step line form ih =>
    by_cases hs : ∃ s, form = .symbol s
    · obtain ⟨s, rfl⟩ := hs
      rw [mapSymbols_symbol, mapSymbols_symbol, mapSymbols_symbol, heq line s (mem_preorder_self _)]
    · have hs : ∀ s, form ≠ .symbol s := fun s heq => hs ⟨s, heq⟩
      have hs' : ∀ s, form.map (mapSymbols f) ≠ .symbol s := fun s heq => by
        cases form <;> first | exact hs _ rfl | cases heq
      rw [mapSymbols_mk f line hs, mapSymbols_mk g line hs', mapSymbols_mk h line hs, Form.map_map]
      refine congrArg _ (Form.map_congr fun child hchild => ?_)
      exact ih child hchild fun l s hmem => heq l s (mem_preorder_of_child hchild hmem)

theorem shaped_mapSymbols {P : Form Node → Prop} {c : Category} {n : Node} {f : Symbol → Symbol}
    (hf : ∀ s, (f s).role = s.role) (h : Shaped P c n) :
    Shaped (fun _ => True) c (n.mapSymbols f) := by
  induction h with
  | @mk c line form fits own parts ih =>
    by_cases hs : ∃ s, form = .symbol s
    · obtain ⟨s, rfl⟩ := hs
      rw [mapSymbols_symbol]
      refine .mk ?_ trivial (by simp [Form.parts])
      cases c <;> simp_all [Form.isOf, Form.isExpression, Form.isBodyStatement, Form.isHole,
        Form.isDeclaration, Form.isSingleDeclaration]
    · rw [mapSymbols_mk f line fun s heq => hs ⟨s, heq⟩]
      refine .mk (by rwa [Form.isOf_map]) trivial fun p hp => ?_
      rw [Form.parts_map, List.mem_map] at hp
      obtain ⟨q, hq, rfl⟩ := hp
      exact ih q hq

end Node

end Debundle
