import Debundle.Proofs.Tree.Shape

/-!
# Tidy trees

The normal form of a program has the shape of a program, except that constants without a literal
of their own may stand where expressions do. A tree is tidy if it is shaped in this wider sense.
-/
namespace Debundle

namespace Form

variable {α β : Type}

/-- The constants that have no literal. -/
def isNamedConstant : Form α → Bool
  | nan | infinity => true
  | _ => false

/-- Whether a form can stand in a place of a category. -/
def fitsIn (c : Category) (form : Form α) : Bool :=
  form.isOf c || c.covers .expression && form.isNamedConstant

theorem isNamedConstant_map (form : Form α) (f : α → β) :
    (form.map f).isNamedConstant = form.isNamedConstant := by
  cases form <;> rfl

theorem fitsIn_map (c : Category) (form : Form α) (f : α → β) :
    (form.map f).fitsIn c = form.fitsIn c := by
  rw [fitsIn, fitsIn, isOf_map, isNamedConstant_map]

theorem fitsIn_of_isOf {c : Category} {form : Form α} (h : form.isOf c = true) :
    form.fitsIn c = true := by
  rw [fitsIn, h, Bool.true_or]

theorem isOf_of_fitsIn {c : Category} {form : Form α} (h : form.fitsIn c = true)
    (hn : form.isNamedConstant = false) : form.isOf c = true := by
  rwa [fitsIn, hn, Bool.and_false, Bool.or_false] at h

/-- Forms that stand for faults, or that only trees made by hand have. -/
def isBroken : Form α → Bool
  | loose .. | absent _ | defect _ => true
  | _ => false

theorem isBroken_of_fitsIn {c : Category} {form : Form α} (h : form.fitsIn c = true) :
    form.isBroken = false := by
  cases hn : form.isNamedConstant with
  | true => cases form <;> first | rfl | cases hn
  | false =>
    have := isIrregular_of_isOf (isOf_of_fitsIn h hn)
    cases form <;> first | rfl | cases this

end Form

/-- A tree of a category in which constants may be named, all of whose nodes have the property
`P`. -/
inductive Tidy (P : Form Node → Prop) : Category → Node → Prop
  | mk {c : Category} {line : Option Nat} {form : Form Node} (fits : form.fitsIn c = true)
      (own : P form) (parts : ∀ p ∈ form.parts c, Tidy P p.1 p.2) : Tidy P c (.mk line form)

namespace Tidy

variable {P Q : Form Node → Prop} {c : Category} {n : Node}

theorem fits (h : Tidy P c n) : n.form.fitsIn c = true := by
  cases h with
  | mk fits => exact fits

theorem own (h : Tidy P c n) : P n.form := by
  cases h with
  | mk _ own => exact own

theorem part (h : Tidy P c n) {p : Category × Node} (hp : p ∈ n.form.parts c) :
    Tidy P p.1 p.2 := by
  cases h with
  | mk _ _ parts => exact parts p hp

theorem mono (h : Tidy P c n) (hPQ : ∀ form, P form → Q form) : Tidy Q c n := by
  induction h with
  | mk fits own _ ih => exact .mk fits (hPQ _ own) ih

theorem child (h : Tidy P c n) {m : Node} (hm : m ∈ n.form.children) : ∃ c', Tidy P c' m := by
  rw [← Form.snd_parts c, List.mem_map] at hm
  obtain ⟨p, hp, rfl⟩ := hm
  exact ⟨p.1, h.part hp⟩

theorem of_mem_preorder (h : Tidy P c n) {m : Node} (hm : m ∈ n.preorder) :
    ∃ c', Tidy P c' m :=
  Node.of_mem_preorder (Q := fun n => ∃ c, Tidy P c n) (fun ⟨_, h⟩ _ hm => h.child hm) ⟨c, h⟩ hm

/-- What holds of every node of a tidy tree may be counted among the properties of its nodes. -/
theorem and_of_preorder (h : Tidy P c n) (hQ : ∀ m ∈ n.preorder, Q m.form) :
    Tidy (fun form => P form ∧ Q form) c n := by
  induction h with
  | @mk c line form fits own parts ih =>
    refine .mk fits ⟨own, hQ _ (Node.mem_preorder_self _)⟩ fun p hp => ih p hp fun m hm => hQ m ?_
    refine Node.mem_preorder_of_child ?_ hm
    rw [← Form.snd_parts c]
    exact List.mem_map_of_mem hp

theorem isBroken (h : Tidy P c n) : n.form.isBroken = false :=
  Form.isBroken_of_fitsIn h.fits

theorem isBodyStatement (h : Tidy P .statement n) : n.form.isBodyStatement = true :=
  Form.isOf_of_fitsIn h.fits (by
    have := h.fits
    obtain ⟨line, form⟩ := n
    cases form <;> first | rfl | cases this)

theorem toInitial (h : Tidy P .expression n) : Tidy P .initial n := by
  cases h with
  | @mk _ line form fits own parts =>
    have hf : form.isExpression = true ∨ form.isNamedConstant = true := by
      simpa [Form.fitsIn, Form.isOf, Category.covers] using fits
    have hp : form.parts .initial = form.parts .expression := form.parts_of_ne_pattern nofun nofun
    refine .mk ?_ own (hp ▸ parts)
    simpa [Form.fitsIn, Form.isOf, Category.covers, or_assoc] using .inr hf

end Tidy

theorem Shaped.tidy {P : Form Node → Prop} {c : Category} {n : Node} (h : Shaped P c n) :
    Tidy (fun form => P form ∧ form.isNamedConstant = false) c n := by
  induction h with
  | @mk c line form fits own parts ih =>
    refine .mk (Form.fitsIn_of_isOf fits) ⟨own, ?_⟩ ih
    have := Form.isIrregular_of_isOf fits
    cases form <;> first | rfl | cases this

theorem Tidy.shaped {P : Form Node → Prop} {c : Category} {n : Node}
    (h : Tidy (fun form => P form ∧ form.isNamedConstant = false) c n) : Shaped P c n := by
  induction h with
  | mk fits own _ ih => exact .mk (Form.isOf_of_fitsIn fits own.2) own.1 ih

end Debundle
