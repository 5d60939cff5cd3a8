import Debundle.Proofs.Normal.Rewrites

/-!
# Normal forms

The rules are at rest at a node if none of them has anything to do there. A tree with the rules at
rest at every node is not changed by normalising it (`normalizeUpTo_of_atRest`). In a normal form
the rules for constants and conditionals are at rest everywhere, and so is the rule for sequences
if nothing that it could split comes up after it was applied (`atRest_normalizeUpTo`).
-/
namespace Debundle

namespace Normal

variable {P : Form Node → Prop} {c : Category} {n : Node} {line : Option Nat} {form : Form Node}
variable {rules : Rules}

/-! ## Constants -/

theorem constant_cases (form : Form Node) :
    constant form = form ∨
      ((∃ left right, form = .binary "/" left right) ∨ ∃ operand, form = .unary "!" operand) ∧
        (constant form = .nan ∨ constant form = .infinity ∨ ∃ b, constant form = .boolean b) := by
  unfold constant
  split
  · rename_i left right
    split
    · split_ifs
      · exact .inr ⟨.inl ⟨left, right, rfl⟩, .inl rfl⟩
      · exact .inr ⟨.inl ⟨left, right, rfl⟩, .inr (.inl rfl)⟩
      · exact .inl rfl
    · exact .inl rfl
  · rename_i operand
    split
    · split_ifs
      · exact .inr ⟨.inr ⟨operand, rfl⟩, .inr (.inr ⟨true, rfl⟩)⟩
      · exact .inr ⟨.inr ⟨operand, rfl⟩, .inr (.inr ⟨false, rfl⟩)⟩
      · exact .inl rfl
    · exact .inl rfl
  · exact .inl rfl

theorem tidy_constant (hP : Stable P) (hn : P .nan ∧ P .infinity) (h : Tidy P c (.mk line form)) :
    Tidy P c (.mk line (constant form)) := by
  obtain heq | ⟨hform, hconstant⟩ := constant_cases form
  · rwa [heq]
  · have hc : c = .expression ∨ c = .element ∨ c = .initial ∨ c = .pattern := by
      have hf := h.fits
      obtain ⟨left, right, rfl⟩ | ⟨operand, rfl⟩ := hform <;> cases c <;> simp <;> cases hf
    obtain heq | heq | ⟨b, heq⟩ := hconstant
    · rw [heq]
      refine .mk ?_ hn.1 nofun
      obtain rfl | rfl | rfl | rfl := hc <;> rfl
    · rw [heq]
      refine .mk ?_ hn.2 nofun
      obtain rfl | rfl | rfl | rfl := hc <;> rfl
    · rw [heq]
      refine .mk ?_ (hP.of_isFree rfl) nofun
      obtain rfl | rfl | rfl | rfl := hc <;> rfl

theorem weight_constant (line : Option Nat) (form : Form Node) :
    (Node.mk line (constant form)).weight ≤ (Node.mk line form).weight := by
  obtain heq | ⟨-, heq | heq | ⟨b, heq⟩⟩ := constant_cases form
  · rw [heq]
  all_goals
    rw [heq]
    exact Node.one_le_weight _

/-! ## The stages of settling a node -/

/-- A node after the rule for constants. -/
def afterConstants (rules : Rules) (form : Form Node) : Form Node :=
  if rules.constants then constant form else form

/-- A node after the rules that rewrite it. -/
def afterChoice (rules : Rules) (line : Option Nat) (form : Form Node) : Form Node :=
  if rules.conditionals then choice line (afterConstants rules form) else afterConstants rules form

/-- A node after its statements are split at sequences. -/
def afterSplits (rules : Rules) (line : Option Nat) (form : Form Node) : Form Node :=
  if rules.sequences then splitBodies false expand (afterChoice rules line form)
  else afterChoice rules line form

/-- Conditions on named constants are met if the rules write some. -/
def Names (P : Form Node → Prop) (rules : Rules) : Prop :=
  rules.constants = true → P .nan ∧ P .infinity

section Stages

variable (hP : Stable P) (hn : Names P rules)

include hP hn

theorem tidy_afterConstants (h : Tidy P c (.mk line form)) :
    Tidy P c (.mk line (afterConstants rules form)) := by
  unfold afterConstants
  split_ifs with hc
  · exact tidy_constant hP (hn hc) h
  · exact h

theorem tidy_afterChoice (h : Tidy P c (.mk line form)) :
    Tidy P c (.mk line (afterChoice rules line form)) := by
  unfold afterChoice
  split_ifs
  · exact tidy_choice hP (tidy_afterConstants hP hn h)
  · exact tidy_afterConstants hP hn h

theorem tidy_afterSplits (h : Tidy P c (.mk line form)) :
    Tidy P c (.mk line (afterSplits rules line form)) := by
  unfold afterSplits
  split_ifs
  · exact tidy_splitBodies hP (tidy_afterChoice hP hn h) (fun _ => expand_of_branch)
      fun _ => tidy_expand hP
  · exact tidy_afterChoice hP hn h

theorem settle_of_tidy (h : Tidy P c (.mk line form)) :
    settle rules line form =
      if rules.conditionals then splitBodies true splitVoid (afterSplits rules line form)
      else afterSplits rules line form := by
  have hchoice := tidy_afterChoice hP hn h
  have hsplits := tidy_afterSplits hP hn h
  have hvoid : Tidy P c (.mk line (splitBodies true splitVoid (afterSplits rules line form))) :=
    tidy_splitBodies hP hsplits (fun _ => splitVoid_of_branch) fun _ h _ => tidy_splitVoid hP h
  have h1 : (if rules.conditionals then surface (choice line (afterConstants rules form))
      else afterConstants rules form) = afterChoice rules line form := by
    unfold afterChoice at hchoice ⊢
    split_ifs at hchoice ⊢
    · exact surface_of_tidy hchoice
    · rfl
  have h2 : (if rules.sequences then surface (splitBodies false expand (afterChoice rules line form))
      else afterChoice rules line form) = afterSplits rules line form := by
    unfold afterSplits at hsplits ⊢
    split_ifs at hsplits ⊢
    · exact surface_of_tidy hsplits
    · rfl
  have hstages : settle rules line form =
      if rules.conditionals then surface (splitBodies true splitVoid (afterSplits rules line form))
      else afterSplits rules line form := by
    rw [← h2, ← h1]
    rfl
  rw [hstages]
  split_ifs
  · exact surface_of_tidy hvoid
  · rfl

theorem tidy_settle (h : Tidy P c (.mk line form)) :
    Tidy P c (.mk line (settle rules line form)) := by
  have hsplits := tidy_afterSplits hP hn h
  rw [settle_of_tidy hP hn h]
  split_ifs
  · exact tidy_splitBodies hP hsplits (fun _ => splitVoid_of_branch) fun _ h _ => tidy_splitVoid hP h
  · exact hsplits

theorem tidy_normalizeUpTo (hmap : ∀ form f, P form → P (form.map f)) (h : Tidy P c n)
    (fuel : Nat) : Tidy P c (normalizeUpTo rules fuel n) := by
  induction fuel generalizing c n with
  | zero => exact h
  | succ fuel ih =>
    obtain ⟨line, form⟩ := n
    have hs := tidy_settle hP hn h
    refine .mk ((Form.fitsIn_map c _ _).trans hs.fits) (hmap _ _ hs.own) ?_
    rw [Form.parts_map]
    intro p hp
    obtain ⟨q, hq, rfl⟩ := List.mem_map.1 hp
    exact ih (hs.part hq)

/-! ## What settling does to the weight -/

theorem cost_settle {own : Form Node → Nat} {unit : Nat} (ho : IsCost own unit)
    (h : Tidy P c (.mk line form)) {m : Node} (hm : m ∈ (settle rules line form).children) :
    ∃ k ∈ (afterChoice rules line form).children, m.total own ≤ k.total own := by
  have hsplits : ∀ {m}, m ∈ (afterSplits rules line form).children →
      ∃ k ∈ (afterChoice rules line form).children, m.total own ≤ k.total own := by
    intro m hm
    unfold afterSplits at hm
    split_ifs at hm
    · exact exists_le_of_mem_splitBodies (tidy_afterChoice hP hn h) (fun _ => expand_of_branch)
        (fun _ => cost_expand hP ho) hm
    · exact ⟨m, hm, le_rfl⟩
  rw [settle_of_tidy hP hn h] at hm
  split_ifs at hm
  · obtain ⟨k, hk, hle⟩ := exists_le_of_mem_splitBodies (tidy_afterSplits hP hn h)
      (fun _ => splitVoid_of_branch) (fun _ => cost_splitVoid hP ho) hm
    obtain ⟨k', hk', hle'⟩ := hsplits hk
    exact ⟨k', hk', hle.trans hle'⟩
  · exact hsplits hm

theorem sum_settle_le {own : Form Node → Nat} {unit : Nat} (ho : IsCost own unit)
    (h : Tidy P c (.mk line form)) :
    ((settle rules line form).children.map (Node.total own)).sum ≤
      ((afterSplits rules line form).children.map (Node.total own)).sum := by
  rw [settle_of_tidy hP hn h]
  split_ifs
  · exact sum_splitBodies_le (tidy_afterSplits hP hn h) (fun _ => splitVoid_of_branch)
      fun _ => cost_splitVoid hP ho
  · exact le_rfl

theorem sum_afterSplits_le {own : Form Node → Nat} {unit : Nat} (ho : IsCost own unit)
    (h : Tidy P c (.mk line form)) :
    ((afterSplits rules line form).children.map (Node.total own)).sum ≤
      ((afterChoice rules line form).children.map (Node.total own)).sum := by
  unfold afterSplits
  split_ifs
  · exact sum_splitBodies_le (tidy_afterChoice hP hn h) (fun _ => expand_of_branch)
      fun _ => cost_expand hP ho
  · exact le_rfl

theorem weight_settle (h : Tidy P c (.mk line form)) {m : Node}
    (hm : m ∈ (settle rules line form).children) : m.weight < (Node.mk line form).weight := by
  have hconstants : (Node.mk line (afterConstants rules form)).weight ≤ (Node.mk line form).weight := by
    unfold afterConstants
    split_ifs
    · exact weight_constant line form
    · exact le_rfl
  obtain ⟨k, hk, hle⟩ := cost_settle hP hn isCost_ownWeight h hm
  rw [← Node.weight_eq_total, ← Node.weight_eq_total] at hle
  have hlt : k.weight < (Node.mk line (afterConstants rules form)).weight := by
    unfold afterChoice at hk
    split_ifs at hk
    · exact weight_choice (tidy_afterConstants hP hn h) hk
    · exact Node.weight_lt_of_mem hk
  omega

/-! ## What settling leaves -/

theorem returnsVoid_settle (h : Tidy P c (.mk line form)) (hc : rules.conditionals = true)
    {m : Node} (hm : m ∈ (settle rules line form).children) : m.form.returnsVoid = false := by
  have hsplits := tidy_afterSplits hP hn h
  rw [settle_of_tidy hP hn h, if_pos hc, ← Form.snd_parts c,
    parts_splitBodies hsplits fun _ => splitVoid_of_branch, List.mem_map] at hm
  obtain ⟨q, hq, rfl⟩ := hm
  obtain ⟨p, hp, hq⟩ := List.mem_flatMap.1 hq
  obtain ⟨rfl, hne | ⟨hl, -⟩⟩ | ⟨-, ⟨m, hm, rfl⟩ | rfl⟩ := mem_replaced hq
  · by_contra hv
    exact hne (category_of_returnsVoid (hsplits.part hp) (by simpa using hv))
  · cases hl
  · exact returnsVoid_of_mem_splitVoid (hsplits.part hp) hm
  · exact returnsVoid_wrap hP (hsplits.part hp)

end Stages

/-! ## What the rules see of a child -/

/-- What the rules look at in a child of the node that they are applied to. -/
structure Head where
  shortcut : Bool
  conditional : Bool
  void : Bool
  sequence : Bool
  inert : Bool
  numeral : Option Numeral

/-- Forms of assignments, their targets and definitions, which no rule rewrites. -/
def isInert {α : Type} : Form α → Bool
  | .symbol _ | .self | .dot .. | .assign .. | .definition .. => true
  | _ => false

def headOf {α : Type} (form : Form α) : Head where
  shortcut := form.isShortcut
  conditional := form.isConditional
  void := form.isVoid
  sequence := form.isSequence
  inert := isInert form
  numeral := match form with
    | .number value => some value
    | _ => none

theorem headOf_map {α β : Type} (form : Form α) (f : α → β) :
    headOf (form.map f) = headOf form := by
  cases form <;> rfl

theorem numeral?_of_tidy (h : Tidy P c n) : numeral? n = (headOf n.form).numeral := by
  have := h.isBroken
  obtain ⟨line, form⟩ := n
  cases form with
  | loose => cases this
  | _ => rfl

theorem headOf_constant (form : Form Node) : headOf (constant form) = headOf form := by
  obtain heq | ⟨⟨left, right, rfl⟩ | ⟨operand, rfl⟩, heq | heq | ⟨b, heq⟩⟩ := constant_cases form
  · rw [heq]
  all_goals
    rw [heq]
    rfl

theorem headOf_choice (line : Option Nat) (form : Form Node) :
    headOf (choice line form) = headOf form := by
  unfold choice
  split <;> rfl

theorem headOf_splitBodies (labels : Bool) (split : Node → List Node) (form : Form Node) :
    headOf (splitBodies labels split form) = headOf form := by
  unfold splitBodies
  dsimp only
  split
  case h_10 => cases labels <;> rfl
  all_goals rfl

theorem headOf_afterChoice (line : Option Nat) (form : Form Node) :
    headOf (afterChoice rules line form) = headOf form := by
  have hconstants : headOf (afterConstants rules form) = headOf form := by
    unfold afterConstants
    split_ifs
    · exact headOf_constant form
    · rfl
  unfold afterChoice
  split_ifs
  · rw [headOf_choice, hconstants]
  · exact hconstants

section Heads

variable (hP : Stable P) (hn : Names P rules)

include hP hn

theorem headOf_settle (h : Tidy P c (.mk line form)) :
    headOf (settle rules line form) = headOf form := by
  have hsplits : headOf (afterSplits rules line form) = headOf form := by
    unfold afterSplits
    split_ifs
    · rw [headOf_splitBodies, headOf_afterChoice]
    · exact headOf_afterChoice line form
  rw [settle_of_tidy hP hn h]
  split_ifs
  · rw [headOf_splitBodies, hsplits]
  · exact hsplits

theorem headOf_normalizeUpTo (h : Tidy P c n) (fuel : Nat) :
    headOf (normalizeUpTo rules fuel n).form = headOf n.form := by
  cases fuel with
  | zero => rfl
  | succ fuel =>
    obtain ⟨line, form⟩ := n
    exact (headOf_map _ _).trans (headOf_settle hP hn h)

end Heads

/-! ## Constants at rest -/

theorem constant_constant (form : Form Node) : constant (constant form) = constant form := by
  obtain heq | ⟨-, heq | heq | ⟨b, heq⟩⟩ := constant_cases form
  · rw [heq, heq]
  all_goals
    rw [heq]
    rfl

theorem constant_choice (line : Option Nat) (h : constant form = form) :
    constant (choice line form) = choice line form := by
  unfold choice
  split
  case h_5 => exact h
  all_goals rfl

theorem constant_splitBodies (labels : Bool) (split : Node → List Node)
    (h : constant form = form) :
    constant (splitBodies labels split form) = splitBodies labels split form := by
  unfold splitBodies
  dsimp only
  split
  case h_10 => cases labels <;> rfl
  case h_18 => exact h
  all_goals rfl

theorem constant_map {f : Node → Node} (h : ∀ n ∈ form.children, numeral? (f n) = numeral? n) :
    constant (form.map f) = (constant form).map f := by
  cases form with
  | binary operator left right =>
    have hl := h left (by simp [Form.children])
    have hr := h right (by simp [Form.children])
    by_cases ho : operator = "/"
    · subst ho
      simp only [Form.map, constant, hl, hr]
      split
      · split_ifs <;> rfl
      · rfl
    · have other : ∀ a b : Node, constant (.binary operator a b) = .binary operator a b := by
        intro a b
        obtain heq | ⟨⟨_, _, heq⟩ | ⟨_, heq⟩, -⟩ := constant_cases (.binary operator a b)
        · exact heq
        · cases heq
          exact absurd rfl ho
        · cases heq
      rw [Form.map, other, other, Form.map]
  | unary operator operand =>
    have hx := h operand (by simp [Form.children])
    by_cases ho : operator = "!"
    · subst ho
      simp only [Form.map, constant, hx]
      split
      · split_ifs <;> rfl
      · rfl
    · have other : ∀ a : Node, constant (.unary operator a) = .unary operator a := by
        intro a
        obtain heq | ⟨⟨_, _, heq⟩ | ⟨_, heq⟩, -⟩ := constant_cases (.unary operator a)
        · exact heq
        · cases heq
        · cases heq
          exact absurd rfl ho
      rw [Form.map, other, other, Form.map]
  | _ => rfl

/-! ## Conditionals at rest -/

theorem returnsVoid_constant (form : Form Node) :
    (constant form).returnsVoid = form.returnsVoid := by
  obtain heq | ⟨⟨left, right, rfl⟩ | ⟨operand, rfl⟩, heq | heq | ⟨b, heq⟩⟩ := constant_cases form
  · rw [heq]
  all_goals
    rw [heq]
    rfl

theorem isRewritable_splitBodies (labels : Bool) (split : Node → List Node) (form : Form Node) :
    (splitBodies labels split form).isRewritable = form.isRewritable := by
  unfold splitBodies
  dsimp only
  split
  case h_10 => cases labels <;> rfl
  all_goals rfl

theorem isRewritable_map {f : Node → Node}
    (h : ∀ n ∈ form.children, headOf (f n).form = headOf n.form) :
    (form.map f).isRewritable = form.isRewritable := by
  cases form with
  | simple value =>
    have := h value (by simp [Form.children])
    simp only [headOf, Head.mk.injEq] at this
    simp [Form.map, Form.isRewritable, this]
  | exit kind value =>
    cases kind with
    | throwing => rfl
    | returning =>
      cases value with
      | none => rfl
      | some value =>
        have := h value (by simp [Form.children])
        simp only [headOf, Head.mk.injEq] at this
        simp [Form.map, Form.isRewritable, this]
  | _ => rfl

/-! ## Sequences at rest -/

/-- An assignment of a sequence to a settled target. -/
def assignsSequence (n : Node) : Bool :=
  match n.form with
  | .assign _ left right => right.form.isSequence && isSettledTarget left
  | _ => false

/-- A definition by a sequence. -/
def definesSequence (n : Node) : Bool :=
  match n.form with
  | .definition _ (some value) => value.form.isSequence
  | _ => false

/-- Statements that can be split. -/
def isSplittable : Form Node → Bool
  | .exit .returning (some value) => value.form.isSequence
  | .simple value => value.form.isSequence || assignsSequence value
  | .ifElse condition _ _ => condition.form.isSequence
  | .forLoop (some init) _ _ _ => init.form.isSequence
  | .withObject object _ => object.form.isSequence
  | .switch subject _ => subject.form.isSequence
  | .declare _ definitions => (definitions.map definesSequence).any id
  | _ => false

/-- Operators that hold a sequence in a place from which the rules for conditionals bring it to
where a statement can be split. -/
def isExposed : Form Node → Bool
  | .binary "&&" left _ => left.form.isSequence
  | .conditional condition _ _ => condition.form.isSequence
  | .unary "void" operand => operand.form.isSequence || assignsSequence operand
  | _ => false

theorem isSequence_initial {d : Node} (h : Tidy P .definition d) :
    (initial d).isSequence = definesSequence d := by
  have hf := h.fits
  obtain ⟨line, form⟩ := d
  cases form with
  | definition name value =>
    cases value with
    | none => rfl
    | some value =>
      obtain ⟨l, inner⟩ := value
      cases inner <;> rfl
  | _ => cases hf

theorem isSome_split? (h : Tidy P .statement n) : (split? n).isSome = isSplittable n.form := by
  obtain ⟨line, form⟩ := n
  rw [split?_eq]
  cases form with
  | exit kind value =>
    cases kind with
    | throwing => rfl
    | returning =>
      cases value with
      | none => rfl
      | some value =>
        obtain ⟨l, inner⟩ := value
        cases inner <;> rfl
  | simple value =>
    obtain ⟨l, inner⟩ := value
    cases inner with
    | assign operator left right =>
      obtain ⟨l', right⟩ := right
      cases right with
      | sequence items =>
        cases hs : isSettledTarget left <;>
          simp [splitSlot?, splitDeclaration?, splitAssignment?, isSplittable, assignsSequence,
            Node.form, Form.isSequence, hs]
      | _ => rfl
    | _ => rfl
  | ifElse condition body alternative =>
    obtain ⟨l, inner⟩ := condition
    cases inner <;> rfl
  | forLoop init test step body =>
    cases init with
    | none => rfl
    | some init =>
      obtain ⟨l, inner⟩ := init
      cases inner <;> rfl
  | withObject object body =>
    obtain ⟨l, inner⟩ := object
    cases inner <;> rfl
  | switch subject branches =>
    obtain ⟨l, inner⟩ := subject
    cases inner <;> rfl
  | declare kind definitions =>
    have hd : ∀ d ∈ definitions, Tidy P .definition d := fun d hd =>
      h.part (p := (.definition, d)) (by simp [Node.form, Form.parts, Form.many, hd])
    have hany : definitions.map definesSequence =
        definitions.map fun d => (initial d).isSequence :=
      List.map_congr_left fun d hm => (isSequence_initial (hd d hm)).symm
    rw [splitDeclaration?_eq hd]
    simp only [splitSlot?, splitAssignment?, Option.none_or, Option.or_none, isSplittable, Node.form,
      hany]
    split_ifs with hs
    · simpa using hs
    · simpa using hs
  | _ => rfl

theorem split?_eq_none_iff (h : Tidy P .statement n) :
    split? n = none ↔ isSplittable n.form = false := by
  rw [← isSome_split? h, Option.isSome_eq_false_iff, Option.isNone_iff_eq_none]

theorem isSplittable_constant (form : Form Node) :
    isSplittable (constant form) = isSplittable form := by
  obtain heq | ⟨⟨left, right, rfl⟩ | ⟨operand, rfl⟩, heq | heq | ⟨b, heq⟩⟩ := constant_cases form
  · rw [heq]
  all_goals
    rw [heq]
    rfl

theorem isSplittable_splitBodies (labels : Bool) (split : Node → List Node) (form : Form Node) :
    isSplittable (splitBodies labels split form) = isSplittable form := by
  unfold splitBodies
  dsimp only
  split
  case h_10 => cases labels <;> rfl
  case h_13 init condition step body => cases init <;> rfl
  all_goals rfl

/-- Statements that can be split come of others only where a sequence is exposed. -/
theorem isSplittable_choice (h : Tidy P c (.mk line form))
    (hx : ∀ form, P form → isExposed form = false) (hs : isSplittable form = false) :
    isSplittable (choice line form) = false := by
  obtain heq | ⟨rfl, ⟨l, a, b, rfl, ha, hb⟩ | ⟨l, a, b, rfl, ha, hb⟩ |
    ⟨l, a, b, d, rfl, ha, hb, hd⟩ | ⟨l, a, b, d, rfl, ha, hb, hd⟩⟩ := choice_cases h
  · rwa [heq]
  · exact hx _ (h.part (p := (.expression, _)) (.head _)).own
  · rw [choice, negation_of_tidy ha]
    rfl
  · exact hx _ (h.part (p := (.expression, _)) (.head _)).own
  · exact hx _ (h.part (p := (.expression, _)) (.head _)).own

theorem isSplittable_map {f : Node → Node}
    (hs : ∀ n ∈ form.children, (f n).form.isSequence = n.form.isSequence)
    (ha : ∀ n ∈ form.children, assignsSequence (f n) = assignsSequence n)
    (hd : ∀ n ∈ form.children, definesSequence (f n) = definesSequence n) :
    isSplittable (form.map f) = isSplittable form := by
  cases form with
  | exit kind value =>
    cases kind with
    | throwing => rfl
    | returning =>
      cases value with
      | none => rfl
      | some value => exact hs value (by simp [Form.children])
  | simple value =>
    have hv : value ∈ (Form.simple value).children := by simp [Form.children]
    simp [Form.map, isSplittable, hs value hv, ha value hv]
  | ifElse condition body alternative => exact hs condition (by simp [Form.children])
  | forLoop init test step body =>
    cases init with
    | none => rfl
    | some init => exact hs init (by simp [Form.children])
  | withObject object body => exact hs object (by simp [Form.children])
  | switch subject branches => exact hs subject (by simp [Form.children])
  | declare kind definitions =>
    have hmap : (definitions.map f).map definesSequence = definitions.map definesSequence := by
      rw [List.map_map]
      exact List.map_congr_left fun d hm => hd d (by simpa [Form.children] using hm)
    simp only [Form.map, isSplittable, hmap]
  | _ => rfl

theorem isSettledTarget_dot (line : Option Nat) (object : Node) (property : String) :
    isSettledTarget (.mk line (.dot object property)) = isSettledTarget object := by
  rw [isSettledTarget, Node.foldUp_mk]
  rfl

theorem isSettledTarget_of_not_isInert (h : Tidy P c n) (hi : isInert n.form = false) :
    isSettledTarget n = false := by
  have hbroken : n.form.isBroken = false := h.isBroken
  obtain ⟨line, form⟩ := n
  rw [isSettledTarget, Node.foldUp_mk]
  cases form with
  | symbol | self | dot | assign | definition => cases hi
  | loose => cases hbroken
  | _ => rfl

theorem assignsSequence_of_not_isInert (hi : isInert n.form = false) :
    assignsSequence n = false := by
  obtain ⟨line, form⟩ := n
  cases form <;> first | rfl | cases hi

theorem definesSequence_of_not_isInert (hi : isInert n.form = false) :
    definesSequence n = false := by
  obtain ⟨line, form⟩ := n
  cases form <;> first | rfl | cases hi

theorem stable_true : Stable fun _ : Form Node => True where
  of_isFree _ := trivial
  negation := trivial
  withObject _ := trivial
  assign _ := trivial

theorem names_true : Names (fun _ : Form Node => True) rules := fun _ => ⟨trivial, trivial⟩

theorem tidy_true_normalizeUpTo (h : Tidy P c n) (fuel : Nat) :
    Tidy (fun _ => True) c (normalizeUpTo rules fuel n) :=
  tidy_normalizeUpTo stable_true names_true (fun _ _ _ => trivial) (h.mono fun _ _ => trivial) fuel

theorem split?_wrap {parts : List Node} (h : ∀ m ∈ parts, Tidy P .statement m)
    (hs : ∀ m ∈ parts, split? m = none) : split? (wrap n parts) = none := by
  by_cases hl : parts.length = 1
  · obtain ⟨part, rfl⟩ := List.length_eq_one_iff.1 hl
    rw [wrap_singleton (h part (.head _))]
    exact hs part (.head _)
  · rw [wrap_of_length_ne (fun m hm => ⟨_, h m hm⟩) hl]
    rfl

theorem split?_of_mem_splitVoid (hP : Stable P) (hx : ∀ form, P form → isExposed form = false)
    (h : Tidy P .statement n) (hs : split? n = none) : ∀ m ∈ splitVoid n, split? m = none := by
  intro m hm
  obtain hv | ⟨-, l, l', operand, rfl, ho, ⟨hv, -⟩ | hv⟩ := splitVoid_cases h
  · cases List.mem_singleton.1 (hv ▸ hm)
    exact hs
  · cases List.mem_singleton.1 (hv ▸ hm)
    rfl
  · rw [hv, List.mem_cons, List.mem_singleton] at hm
    rcases hm with rfl | rfl
    · rw [split?_eq_none_iff (tidy_simple hP ho)]
      exact hx _ (h.part (p := (.expression, _)) (.head _)).own
    · rfl

theorem normalize?_of_tidy (h : Tidy P c n) : n.normalize? rules = .ok (n.normalize rules) := by
  rw [Node.normalize?, Node.normalize, fault?_of_tidy (tidy_true_normalizeUpTo h _)]

/-- The rules for conditionals, if they are applied, expose no sequence. -/
def Hides (P : Form Node → Prop) (rules : Rules) : Prop :=
  rules.conditionals = true → ∀ form, P form → isExposed form = false

section Sequences

variable (hP : Stable P) (hn : Names P rules)

include hP hn

theorem settle_of_isInert (h : Tidy P c (.mk line form)) (hi : isInert form = true) :
    settle rules line form = form := by
  rw [settle_of_tidy hP hn h]
  unfold afterSplits afterChoice afterConstants
  cases form with
  | symbol | self | dot | assign | definition => split_ifs <;> rfl
  | _ => cases hi

theorem normalizeUpTo_of_isInert (h : Tidy P c n) (hi : isInert n.form = true) (fuel : Nat) :
    normalizeUpTo rules (fuel + 1) n = .mk n.line (n.form.map (normalizeUpTo rules fuel)) := by
  obtain ⟨line, form⟩ := n
  rw [normalizeUpTo, settle_of_isInert hP hn h hi]
  rfl

theorem isInert_normalizeUpTo (h : Tidy P c n) (fuel : Nat) :
    isInert (normalizeUpTo rules fuel n).form = isInert n.form :=
  congrArg Head.inert (headOf_normalizeUpTo hP hn h fuel)

theorem isSequence_normalizeUpTo (h : Tidy P c n) (fuel : Nat) :
    (normalizeUpTo rules fuel n).form.isSequence = n.form.isSequence :=
  congrArg Head.sequence (headOf_normalizeUpTo hP hn h fuel)

theorem isSettledTarget_normalizeUpTo (h : Tidy P c n) (fuel : Nat) :
    isSettledTarget (normalizeUpTo rules fuel n) = isSettledTarget n := by
  induction fuel generalizing c n with
  | zero => rfl
  | succ fuel ih =>
    cases hi : isInert n.form with
    | true =>
      rw [normalizeUpTo_of_isInert hP hn h hi]
      obtain ⟨line, form⟩ := n
      cases form with
      | symbol | self | assign | definition => rfl
      | dot object property =>
        change isSettledTarget (.mk line (.dot _ property)) = _
        rw [isSettledTarget_dot, isSettledTarget_dot]
        exact ih (h.part (p := (.expression, object)) (.head _))
      | _ => cases hi
    | false =>
      have hi' := (isInert_normalizeUpTo hP hn h (fuel + 1)).trans hi
      rw [isSettledTarget_of_not_isInert h hi,
        isSettledTarget_of_not_isInert (tidy_true_normalizeUpTo h _) hi']

theorem assignsSequence_normalizeUpTo (h : Tidy P c n) (fuel : Nat) :
    assignsSequence (normalizeUpTo rules fuel n) = assignsSequence n := by
  cases fuel with
  | zero => rfl
  | succ fuel =>
    cases hi : isInert n.form with
    | true =>
      rw [normalizeUpTo_of_isInert hP hn h hi]
      obtain ⟨line, form⟩ := n
      cases form with
      | assign operator left right =>
        obtain ⟨cl, hl⟩ := h.child (m := left) (by simp [Node.form, Form.children])
        obtain ⟨cr, hr⟩ := h.child (m := right) (by simp [Node.form, Form.children])
        change ((normalizeUpTo rules fuel right).form.isSequence &&
          isSettledTarget (normalizeUpTo rules fuel left)) = _
        rw [isSequence_normalizeUpTo hP hn hr, isSettledTarget_normalizeUpTo hP hn hl]
        rfl
      | symbol | self | dot | definition => rfl
      | _ => cases hi
    | false =>
      rw [assignsSequence_of_not_isInert hi,
        assignsSequence_of_not_isInert ((isInert_normalizeUpTo hP hn h _).trans hi)]

theorem definesSequence_normalizeUpTo (h : Tidy P c n) (fuel : Nat) :
    definesSequence (normalizeUpTo rules fuel n) = definesSequence n := by
  cases fuel with
  | zero => rfl
  | succ fuel =>
    cases hi : isInert n.form with
    | true =>
      rw [normalizeUpTo_of_isInert hP hn h hi]
      obtain ⟨line, form⟩ := n
      cases form with
      | definition name value =>
        cases value with
        | none => rfl
        | some value =>
          obtain ⟨cv, hv⟩ := h.child (m := value) (by simp [Node.form, Form.children])
          exact isSequence_normalizeUpTo hP hn hv fuel
      | symbol | self | dot | assign => rfl
      | _ => cases hi
    | false =>
      rw [definesSequence_of_not_isInert hi,
        definesSequence_of_not_isInert ((isInert_normalizeUpTo hP hn h _).trans hi)]

theorem isSplittable_settle (hx : Hides P rules) (h : Tidy P c (.mk line form))
    (hs : isSplittable form = false) : isSplittable (settle rules line form) = false := by
  have hconstants : isSplittable (afterConstants rules form) = false := by
    unfold afterConstants
    split_ifs
    · rwa [isSplittable_constant]
    · exact hs
  have hchoice : isSplittable (afterChoice rules line form) = false := by
    unfold afterChoice
    split_ifs with hc
    · exact isSplittable_choice (tidy_afterConstants hP hn h) (hx hc) hconstants
    · exact hconstants
  have hsplits : isSplittable (afterSplits rules line form) = false := by
    unfold afterSplits
    split_ifs
    · rwa [isSplittable_splitBodies]
    · exact hchoice
  rw [settle_of_tidy hP hn h]
  split_ifs
  · rwa [isSplittable_splitBodies]
  · exact hsplits

theorem split?_normalizeUpTo (hx : Hides P rules) (h : Tidy P .statement n)
    (hs : split? n = none) (fuel : Nat) : split? (normalizeUpTo rules fuel n) = none := by
  cases fuel with
  | zero => exact hs
  | succ fuel =>
    rw [split?_eq_none_iff (tidy_true_normalizeUpTo h _)]
    obtain ⟨line, form⟩ := n
    have ht := tidy_settle hP hn h
    refine (isSplittable_map (fun m hm => ?_) (fun m hm => ?_) (fun m hm => ?_)).trans
      (isSplittable_settle hP hn hx h ((split?_eq_none_iff h).1 hs))
    · obtain ⟨d, hd⟩ := ht.child hm
      exact isSequence_normalizeUpTo hP hn hd fuel
    · obtain ⟨d, hd⟩ := ht.child hm
      exact assignsSequence_normalizeUpTo hP hn hd fuel
    · obtain ⟨d, hd⟩ := ht.child hm
      exact definesSequence_normalizeUpTo hP hn hd fuel

theorem split?_of_mem_settle (hx : Hides P rules) (hs : rules.sequences = true)
    (h : Tidy P c (.mk line form)) {m : Node} (hm : m ∈ (settle rules line form).freeStatements) :
    split? m = none := by
  have hchoice := tidy_afterChoice hP hn h
  have hsplits := tidy_afterSplits hP hn h
  have hsettle := tidy_settle hP hn h
  have splits : ∀ m ∈ (afterSplits rules line form).freeStatements, split? m = none := by
    intro m hm
    have hbroken := hsplits.isBroken
    rw [afterSplits, if_pos hs] at hm hbroken
    obtain ⟨n, hfree, hm⟩ :=
      exists_of_mem_freeStatements hchoice hbroken (fun _ => expand_of_branch) hm
    have hn' := tidy_of_mem_freeStatements hchoice hfree
    obtain hm | rfl := hm
    · exact split?_of_mem_expand hP hn' m hm
    · exact split?_wrap (tidy_expand hP hn') (split?_of_mem_expand hP hn')
  have hbroken := hsettle.isBroken
  rw [settle_of_tidy hP hn h] at hm hbroken
  split_ifs at hm hbroken with hc
  · obtain ⟨n, hfree, hm⟩ :=
      exists_of_mem_freeStatements hsplits hbroken (fun _ => splitVoid_of_branch) hm
    have hn' := tidy_of_mem_freeStatements hsplits hfree
    have hvoid := split?_of_mem_splitVoid hP (hx hc) hn' (splits n hfree)
    obtain hm | rfl := hm
    · exact hvoid m hm
    · exact split?_wrap (fun m hm => tidy_splitVoid hP hn' hm) hvoid
  · exact splits m hm

end Sequences

/-! ## Rules at rest -/

/-- No rule has anything to do at a node. -/
structure AtRest (rules : Rules) (form : Form Node) : Prop where
  constants : rules.constants = true → constant form = form
  conditionals : rules.conditionals = true → form.isRewritable = false
  sequences : rules.sequences = true → ∀ n ∈ form.freeStatements, split? n = none

theorem returnsVoid_of_not_isRewritable (h : form.isRewritable = false) :
    form.returnsVoid = false := by
  unfold Form.returnsVoid
  split
  · rename_i value
    have hor : (value.form.isConditional || value.form.isVoid) = false := h
    exact (Bool.or_eq_false_iff.1 hor).2
  · rfl

theorem afterChoice_of_atRest (hr : AtRest { rules with sequences := false } form) :
    afterChoice rules line form = form := by
  have hconstants : afterConstants rules form = form := by
    unfold afterConstants
    split_ifs with hc
    · exact hr.constants hc
    · rfl
  unfold afterChoice
  rw [hconstants]
  split_ifs with hc
  · exact choice_of_not_isRewritable line (hr.conditionals hc)
  · rfl

theorem settle_of_atRest (h : Tidy P c (.mk line form)) (hr : AtRest rules form)
    (hv : rules.conditionals = true → ∀ n ∈ form.children, n.form.returnsVoid = false) :
    settle rules line form = form := by
  have hsplits : afterSplits rules line form = form := by
    unfold afterSplits
    rw [afterChoice_of_atRest ⟨hr.constants, hr.conditionals, nofun⟩]
    split_ifs with hs
    · exact splitBodies_eq_self h (fun _ => expand_of_branch)
        (fun n hn => expand_of_none (hr.sequences hs n hn)) nofun
    · rfl
  rw [settle_of_tidy stable_true names_true (h.mono fun _ _ => trivial), hsplits]
  split_ifs with hc
  · have single : ∀ n, (.statement, n) ∈ form.parts c → splitVoid n = [n] := fun n hn =>
      splitVoid_of_not_returnsVoid (hv hc n (by
        rw [← Form.snd_parts c]
        exact List.mem_map_of_mem (f := Prod.snd) hn))
    refine splitBodies_eq_self h (fun _ => splitVoid_of_branch) (fun n hn => ?_) fun _ label n hf => ?_
    · exact single n ((mem_freeStatements_iff h.isBroken).1 hn).1
    · subst hf
      exact single n (.head _)
  · rfl

theorem normalizeUpTo_of_atRest (h : Tidy P c n) (hr : ∀ m ∈ n.preorder, AtRest rules m.form)
    (fuel : Nat) : normalizeUpTo rules fuel n = n := by
  induction fuel generalizing c n with
  | zero => rfl
  | succ fuel ih =>
    obtain ⟨line, form⟩ := n
    have below : ∀ n ∈ form.children, ∀ m ∈ n.preorder, AtRest rules m.form :=
      fun n hn m hm => hr m (Node.mem_preorder_of_child hn hm)
    have hs : settle rules line form = form :=
      settle_of_atRest h (hr _ (Node.mem_preorder_self _)) fun hc n hn =>
        returnsVoid_of_not_isRewritable ((below n hn n n.mem_preorder_self).conditionals hc)
    have hmap : form.map (normalizeUpTo rules fuel) = form.map fun n => n :=
      Form.map_congr fun n hn => by
        obtain ⟨d, hd⟩ := h.child hn
        exact ih hd (below n hn)
    rw [normalizeUpTo, hs, hmap, Form.map_id]

section Rest

variable (hP : Stable P) (hn : Names P rules)

include hP hn

/-- What holds of every node right after it was settled and its children were normalised holds
everywhere in a normal form. A node is settled when no `return` of `void` is left in its place. -/
theorem forall_normalizeUpTo {Q : Form Node → Prop}
    (step : ∀ {c line form} (fuel : Nat), Tidy P c (.mk line form) →
      (rules.conditionals = true → form.returnsVoid = false) →
      Q ((settle rules line form).map (normalizeUpTo rules fuel)))
    {fuel : Nat} (h : Tidy P c n) (hw : n.weight ≤ fuel)
    (hv : rules.conditionals = true → n.form.returnsVoid = false) :
    ∀ m ∈ (normalizeUpTo rules fuel n).preorder, Q m.form := by
  induction fuel generalizing c n with
  | zero =>
    have := n.one_le_weight
    omega
  | succ fuel ih =>
    obtain ⟨line, form⟩ := n
    intro m hm
    rw [normalizeUpTo, Node.preorder_mk, List.mem_cons, List.mem_flatten] at hm
    obtain rfl | ⟨below, hb, hm⟩ := hm
    · exact step fuel h hv
    · simp only [Form.children_map, List.map_map, List.mem_map] at hb
      obtain ⟨k, hk, rfl⟩ := hb
      obtain ⟨d, hd⟩ := (tidy_settle hP hn h).child hk
      have hlt := weight_settle hP hn h hk
      exact ih hd (by omega) (fun hc => returnsVoid_settle hP hn h hc hk) m hm

theorem constant_settled (hc : rules.constants = true) (h : Tidy P c (.mk line form))
    (fuel : Nat) :
    constant ((settle rules line form).map (normalizeUpTo rules fuel)) =
      (settle rules line form).map (normalizeUpTo rules fuel) := by
  have hs := tidy_settle hP hn h
  have hchoice : constant (afterChoice rules line form) = afterChoice rules line form := by
    unfold afterChoice afterConstants
    rw [if_pos hc]
    split_ifs
    · exact constant_choice line (constant_constant form)
    · exact constant_constant form
  have hsplits : constant (afterSplits rules line form) = afterSplits rules line form := by
    unfold afterSplits
    split_ifs
    · exact constant_splitBodies _ _ hchoice
    · exact hchoice
  have hsettle : constant (settle rules line form) = settle rules line form := by
    rw [settle_of_tidy hP hn h]
    split_ifs
    · exact constant_splitBodies _ _ hsplits
    · exact hsplits
  rw [constant_map, hsettle]
  intro m hm
  obtain ⟨d, hd⟩ := hs.child hm
  rw [numeral?_of_tidy hd, numeral?_of_tidy (tidy_true_normalizeUpTo hd fuel),
    headOf_normalizeUpTo hP hn hd]

theorem isRewritable_settled (hc : rules.conditionals = true) (h : Tidy P c (.mk line form))
    (hv : form.returnsVoid = false) (fuel : Nat) :
    ((settle rules line form).map (normalizeUpTo rules fuel)).isRewritable = false := by
  have hconstants : (afterConstants rules form).returnsVoid = false := by
    unfold afterConstants
    split_ifs
    · rwa [returnsVoid_constant]
    · exact hv
  have hchoice : (afterChoice rules line form).isRewritable = false := by
    rw [afterChoice, if_pos hc]
    exact isRewritable_choice line hconstants
  have hsplits : (afterSplits rules line form).isRewritable = false := by
    unfold afterSplits
    split_ifs
    · rwa [isRewritable_splitBodies]
    · exact hchoice
  have hsettle : (settle rules line form).isRewritable = false := by
    rwa [settle_of_tidy hP hn h, if_pos hc, isRewritable_splitBodies]
  refine (isRewritable_map fun m hm => ?_).trans hsettle
  obtain ⟨d, hd⟩ := (tidy_settle hP hn h).child hm
  exact headOf_normalizeUpTo hP hn hd fuel

theorem split?_settled (hx : Hides P rules) (hs : rules.sequences = true)
    (h : Tidy P c (.mk line form)) (fuel : Nat) :
    ∀ m ∈ ((settle rules line form).map (normalizeUpTo rules fuel)).freeStatements,
      split? m = none := by
  intro m hm
  rw [Form.freeStatements_map, List.mem_map] at hm
  obtain ⟨k, hk, rfl⟩ := hm
  exact split?_normalizeUpTo hP hn hx (tidy_of_mem_freeStatements (tidy_settle hP hn h) hk)
    (split?_of_mem_settle hP hn hx hs h hk) fuel

/-- All rules are at rest in a normal form if no sequence is exposed on the way. -/
theorem atRest_normalizeUpTo (hx : Hides P rules) {fuel : Nat} (h : Tidy P c n)
    (hw : n.weight ≤ fuel) (hv : rules.conditionals = true → n.form.returnsVoid = false) :
    ∀ m ∈ (normalizeUpTo rules fuel n).preorder, AtRest rules m.form :=
  forall_normalizeUpTo hP hn (Q := AtRest rules) (fun fuel h hv =>
    { constants := fun hc => constant_settled hP hn hc h fuel
      conditionals := fun hc => isRewritable_settled hP hn hc h (hv hc) fuel
      sequences := fun hs => split?_settled hP hn hx hs h fuel }) h hw hv

/-- The rules for constants and conditionals are at rest in every normal form. -/
theorem atRest_normalizeUpTo_of_sequences {fuel : Nat} (h : Tidy P c n) (hw : n.weight ≤ fuel)
    (hv : rules.conditionals = true → n.form.returnsVoid = false) :
    ∀ m ∈ (normalizeUpTo rules fuel n).preorder,
      AtRest { rules with sequences := false } m.form :=
  forall_normalizeUpTo hP hn (Q := AtRest { rules with sequences := false }) (fun fuel h hv =>
    { constants := fun hc => constant_settled hP hn hc h fuel
      conditionals := fun hc => isRewritable_settled hP hn hc h (hv hc) fuel
      sequences := nofun }) h hw hv

end Rest

end Normal

end Debundle
