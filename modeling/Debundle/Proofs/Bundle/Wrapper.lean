import Debundle.Proofs.Tree.Positions
import Debundle.Bundle.Assembly
import Debundle.Scope.Table

/-!
# Parameters of module functions

The parameters of a module function are shown under the names that modules know them by. Which name
is shown for a definition is decided by the last parameter that has the definition and another name
than its place gives (`shownAs_eq_some_iff`).
-/
namespace Debundle

namespace ModuleRecord

variable {function : Node} {home : Home} {name shown : String}

def parameters (function : Node) : List Node :=
  match function.form with
  | .function _ _ parameters _ => parameters
  | _ => []

/-- The symbol of the parameter at a place. -/
def parameter? (function : Node) (i : Nat) : Option Symbol :=
  (parameters function)[i]?.bind fun parameter =>
    match parameter.form with
    | .symbol s => some s
    | _ => none

/-- The name that a parameter gives to a definition, if it is one of the definition's. -/
def shownBy (home : Home) (name : String) : Node × String → Option String
  | (parameter, shown) =>
    match parameter.form with
    | .symbol s => if s.home = some home ∧ s.name = name ∧ name ≠ shown then some shown else none
    | _ => none

theorem find?_filterMap_map {α β γ : Type} (f : α → Option β) (p : β → Bool) (g : β → γ)
    (items : List α) :
    ((items.filterMap f).find? p).map g = items.findSome? fun a => ((f a).filter p).map g := by
  induction items with
  | nil => rfl
  | cons a items ih =>
    rw [List.findSome?_cons]
    cases hf : f a with
    | none => rw [List.filterMap_cons_none hf]; exact ih
    | some b =>
      rw [List.filterMap_cons_some hf, List.find?_cons]
      cases hp : p b with
      | true => simp [Option.filter, hp]
      | false => simpa [Option.filter, hp] using ih

theorem shownAs_eq (function : Node) (home : Home) (name : String) :
    shownAs function home name =
      ((parameters function).zip wrapperNames).reverse.findSome? (shownBy home name) := by
  obtain ⟨line, form⟩ := function
  cases form with
  | function kind own ps body =>
    simp only [shownAs, shown, Node.form, ← List.filterMap_reverse, find?_filterMap_map]
    refine congrArg (List.findSome? · _) (funext fun p => ?_)
    obtain ⟨⟨l, form⟩, c⟩ := p
    cases form with
    | symbol s =>
      by_cases hc : s.name = c <;> by_cases hh : s.home = some home <;>
        by_cases hn : s.name = name <;> simp_all [shownBy, Node.form, Option.filter]
    | _ => rfl
  | _ => rfl

theorem findSome?_reverse_eq_some_iff {α β : Type} {f : α → Option β} {items : List α} {b : β} :
    items.reverse.findSome? f = some b ↔
      ∃ (i : Nat) (a : α), items[i]? = some a ∧ f a = some b ∧
        ∀ j > i, ∀ c, items[j]? = some c → f c = none := by
  rw [List.findSome?_eq_some_iff]
  constructor
  · rintro ⟨late, a, early, hsplit, ha, hlate⟩
    have hitems : items = early.reverse ++ a :: late.reverse := by
      rw [← List.reverse_reverse items, hsplit]
      simp
    refine ⟨early.length, a, by simp [hitems], ha, fun j hj c hc => hlate c ?_⟩
    rw [hitems, List.getElem?_append_right (by simp; omega)] at hc
    obtain ⟨k, hk⟩ : ∃ k, j - early.reverse.length = k + 1 :=
      ⟨j - early.length - 1, by simp; omega⟩
    rw [hk, List.getElem?_cons_succ] at hc
    simpa using List.mem_of_getElem? hc
  · rintro ⟨i, a, hi, ha, hlate⟩
    obtain ⟨hlt, hget⟩ := List.getElem?_eq_some_iff.1 hi
    refine ⟨(items.drop (i + 1)).reverse, a, (items.take i).reverse, ?_, ha, fun c hc => ?_⟩
    · conv_lhs => rw [← List.take_append_drop i items, List.drop_eq_getElem_cons hlt, hget]
      simp
    · obtain ⟨k, hk⟩ := List.mem_iff_getElem?.1 (List.mem_reverse.1 hc)
      rw [List.getElem?_drop] at hk
      exact hlate _ (by omega) c hk

theorem shownBy_eq_some_iff {p : Node × String} :
    shownBy home name p = some shown ↔ ∃ line s, p = (.mk line (.symbol s), shown) ∧
      s.home = some home ∧ s.name = name ∧ name ≠ shown := by
  obtain ⟨⟨line, form⟩, c⟩ := p
  cases form with
  | symbol s =>
    simp only [shownBy, Node.form]
    constructor
    · intro h
      split_ifs at h with hif
      cases h
      exact ⟨line, s, rfl, hif⟩
    · rintro ⟨_, _, ⟨⟩, hif⟩
      exact if_pos hif
  | _ =>
    refine iff_of_false (by rintro ⟨⟩) ?_
    rintro ⟨_, _, ⟨⟩, _⟩

theorem parameter?_eq_some_iff {i : Nat} {s : Symbol} :
    parameter? function i = some s ↔
      ∃ line, (parameters function)[i]? = some (.mk line (.symbol s)) := by
  rw [parameter?, Option.bind_eq_some_iff]
  constructor
  · rintro ⟨⟨line, form⟩, hget, h⟩
    cases form with
    | symbol t => cases h; exact ⟨line, hget⟩
    | _ => cases h
  · rintro ⟨line, hget⟩
    exact ⟨_, hget, rfl⟩

/-- A definition is shown under the name of the last parameter that has it, those left out that have
their proper name. -/
theorem shownAs_eq_some_iff :
    shownAs function home name = some shown ↔
      ∃ i s, parameter? function i = some s ∧ wrapperNames[i]? = some shown ∧
        s.home = some home ∧ s.name = name ∧ name ≠ shown ∧
        ∀ j > i, ∀ t c, parameter? function j = some t → wrapperNames[j]? = some c →
          t.home = some home → t.name = name → name = c := by
  simp only [shownAs_eq, findSome?_reverse_eq_some_iff, shownBy_eq_some_iff,
    List.getElem?_zip_eq_some]
  constructor
  · rintro ⟨i, p, ⟨hparameter, hshown⟩, ⟨line, s, rfl, hhome, hname, hne⟩, hlate⟩
    refine ⟨i, s, parameter?_eq_some_iff.2 ⟨line, hparameter⟩, hshown, hhome, hname, hne, ?_⟩
    intro j hj t c ht hc hthome htname
    obtain ⟨tline, ht⟩ := parameter?_eq_some_iff.1 ht
    have hnone := hlate j hj (_, c) ⟨ht, hc⟩
    by_contra hne'
    rw [shownBy_eq_some_iff.2 ⟨tline, t, rfl, hthome, htname, hne'⟩] at hnone
    cases hnone
  · rintro ⟨i, s, hparameter, hshown, hhome, hname, hne, hlate⟩
    obtain ⟨line, hparameter⟩ := parameter?_eq_some_iff.1 hparameter
    refine ⟨i, (_, shown), ⟨hparameter, hshown⟩, ⟨line, s, rfl, hhome, hname, hne⟩, ?_⟩
    rintro j hj ⟨parameter, c⟩ ⟨hget, hc⟩
    rw [Option.eq_none_iff_forall_ne_some]
    intro x hx
    obtain ⟨tline, t, heq, hthome, htname, hne'⟩ := shownBy_eq_some_iff.1 hx
    cases heq
    exact hne' (hlate j hj t c (parameter?_eq_some_iff.2 ⟨tline, hget⟩) hc hthome htname)

end ModuleRecord

namespace Node

/-! ## Requiring calls -/

theorem relink_mk (link : String → Option String) (line : Option Nat) (form : Form Node) :
    relink link (mk line form) =
      mk line (match (required? form).bind link with
        | some specifier => withSpecifier specifier (form.map (relink link))
        | none => form.map (relink link)) := by
  have h : relink link (mk line form) = _ := foldUp_mk _ line form
  simp only [Form.map_map, Form.map_id] at h
  exact h

theorem required?_eq_some_iff {form : Form Node} {specifier : String} :
    required? form = some specifier ↔
      ∃ callee line, form = .call callee [.mk line (.string specifier)] ∧
        callee.isRequire = true := by
  constructor
  · intro h
    unfold required? at h
    split at h
    · split_ifs at h with hr
      cases h
      exact ⟨_, _, rfl, hr⟩
    · cases h
  · rintro ⟨callee, line, rfl, hr⟩
    exact if_pos hr

theorem isRequire_eq_true_iff {n : Node} :
    n.isRequire = true ↔ ∃ line s, n = .mk line (.symbol s) ∧ s.role = .reference ∧
      (s.name = "require" ∨ s.shownAs = some "require") := by
  obtain ⟨line, form⟩ := n
  cases form with
  | symbol s => simp [isRequire, Node.form]
  | _ => simp [isRequire, Node.form]

theorem relink_symbol (link : String → Option String) (line : Option Nat) (s : Symbol) :
    relink link (mk line (.symbol s)) = mk line (.symbol s) := by
  rw [relink_mk]
  rfl

theorem relink_call {link : String → Option String} {callee : Node} {specifier new : String}
    (line argument : Option Nat) (hr : callee.isRequire = true) (h : link specifier = some new) :
    relink link (mk line (.call callee [mk argument (.string specifier)])) =
      mk line (.call callee [mk argument (.string new)]) := by
  have hrequired : (required? (.call callee [mk argument (.string specifier)])).bind link =
      some new := by
    rw [required?_eq_some_iff.2 ⟨callee, argument, rfl, hr⟩]
    exact h
  obtain ⟨calleeLine, s, rfl, -⟩ := isRequire_eq_true_iff.1 hr
  rw [relink_mk, hrequired]
  simp only [Form.map, List.map_cons, List.map_nil, relink_symbol]
  rw [relink_mk]
  rfl

theorem relink_of_none {link : String → Option String} (line : Option Nat) {form : Form Node}
    (h : (required? form).bind link = none) :
    relink link (mk line form) = mk line (form.map (relink link)) := by
  rw [relink_mk, h]

end Node

end Debundle
