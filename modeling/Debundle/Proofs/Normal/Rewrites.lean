import Debundle.Proofs.Normal.Splits

/-!
# Rewriting one node

What the rules for constants and conditionals make of one node of a tidy tree: which nodes they
rewrite, what these become, and that the result is tidy.
-/
namespace Debundle

namespace Form

variable {α : Type}

/-- Operators that choose what to evaluate. -/
def isShortcut : Form α → Bool
  | binary operator _ _ => operator = "&&" || operator = "||"
  | conditional .. => true
  | _ => false

def isConditional : Form α → Bool
  | conditional .. => true
  | _ => false

def isVoid : Form α → Bool
  | unary operator _ => operator = "void"
  | _ => false

/-- A `return` of the `void` of something. -/
def returnsVoid : Form Node → Bool
  | exit .returning (some value) => value.form.isVoid
  | _ => false

/-- The statements that the rules for conditionals rewrite. -/
def isRewritable : Form Node → Bool
  | simple value => value.form.isShortcut
  | exit .returning (some value) => value.form.isConditional || value.form.isVoid
  | _ => false

end Form

namespace Normal

open Node (one_le_weight)

variable {P : Form Node → Prop} {c : Category} {n : Node} {line : Option Nat} {form : Form Node}

theorem negation_of_tidy (h : Tidy P .expression n) :
    negation n = .mk n.line (.unary "!" n) := by
  rw [negation, isAbsent_of_tidy h, if_neg Bool.false_ne_true]

theorem tidy_negation (hP : Stable P) (h : Tidy P .expression n) :
    Tidy P .expression (negation n) := by
  rw [negation_of_tidy h]
  exact .mk rfl hP.negation (by simpa [Form.parts] using h)

theorem tidy_return (hP : Stable P) {value : Option Node}
    (h : ∀ n ∈ value, Tidy P .expression n) :
    Tidy P .statement (.mk line (.exit .returning value)) := by
  refine .mk rfl (hP.of_isFree rfl) ?_
  cases value with
  | none => simp [Form.parts, Form.maybe]
  | some n => simpa [Form.parts, Form.maybe] using h

theorem tidy_returning (hP : Stable P) (h : Tidy P .expression n) :
    Tidy P .statement (returning line n) := by
  refine tidy_return hP fun m hm => ?_
  split_ifs at hm
  · cases hm
  · cases hm
    exact h

theorem tidy_if (hP : Stable P) {condition body : Node} {alternative : Option Node}
    (hc : Tidy P .expression condition) (hb : Tidy P .statement body)
    (ha : ∀ n ∈ alternative, Tidy P .statement n) :
    Tidy P .statement (.mk line (.ifElse condition body alternative)) := by
  refine .mk rfl (hP.of_isFree rfl) ?_
  cases alternative with
  | none => simpa [Form.parts, Form.maybe] using ⟨hc, hb⟩
  | some n => simpa [Form.parts, Form.maybe] using ⟨hc, hb, ha n rfl⟩

/-! ## Operator statements and returned conditionals -/

theorem choice_cases (h : Tidy P c (.mk line form)) :
    choice line form = form ∨ c = .statement ∧
      ((∃ l a b, form = .simple (.mk l (.binary "&&" a b)) ∧
          Tidy P .expression a ∧ Tidy P .expression b) ∨
        (∃ l a b, form = .simple (.mk l (.binary "||" a b)) ∧
          Tidy P .expression a ∧ Tidy P .expression b) ∨
        (∃ l a b d, form = .simple (.mk l (.conditional a b d)) ∧
          Tidy P .expression a ∧ Tidy P .expression b ∧ Tidy P .expression d) ∨
        ∃ l a b d, form = .exit .returning (some (.mk l (.conditional a b d))) ∧
          Tidy P .expression a ∧ Tidy P .expression b ∧ Tidy P .expression d) := by
  have operand : ∀ {m : Node}, form = .simple m ∨ form = .exit .returning (some m) →
      c = .statement ∧ Tidy P .expression m := by
    rintro m (rfl | rfl)
    · have hc : c = .statement := by
        have := h.fits
        cases c <;> first | rfl | cases this
      exact ⟨hc, h.part (p := (.expression, m)) (.head _)⟩
    · have hc : c = .statement := by
        have := h.fits
        cases c <;> first | rfl | cases this
      exact ⟨hc, h.part (p := (.expression, m)) (.head _)⟩
  have parts : ∀ {m k : Node}, Tidy P .expression m →
      (.expression, k) ∈ m.form.parts .expression → Tidy P .expression k :=
    fun hm hk => hm.part hk
  unfold choice
  split
  · obtain ⟨hc, hm⟩ := operand (.inl rfl)
    exact .inr ⟨hc, .inl ⟨_, _, _, rfl, parts hm (by simp [Node.form, Form.parts]),
      parts hm (by simp [Node.form, Form.parts])⟩⟩
  · obtain ⟨hc, hm⟩ := operand (.inl rfl)
    exact .inr ⟨hc, .inr (.inl ⟨_, _, _, rfl, parts hm (by simp [Node.form, Form.parts]),
      parts hm (by simp [Node.form, Form.parts])⟩)⟩
  · obtain ⟨hc, hm⟩ := operand (.inl rfl)
    exact .inr ⟨hc, .inr (.inr (.inl ⟨_, _, _, _, rfl, parts hm (by simp [Node.form, Form.parts]),
      parts hm (by simp [Node.form, Form.parts]), parts hm (by simp [Node.form, Form.parts])⟩))⟩
  · obtain ⟨hc, hm⟩ := operand (.inr rfl)
    exact .inr ⟨hc, .inr (.inr (.inr ⟨_, _, _, _, rfl, parts hm (by simp [Node.form, Form.parts]),
      parts hm (by simp [Node.form, Form.parts]), parts hm (by simp [Node.form, Form.parts])⟩))⟩
  · exact .inl rfl

theorem tidy_choice (hP : Stable P) (h : Tidy P c (.mk line form)) :
    Tidy P c (.mk line (choice line form)) := by
  obtain heq | ⟨rfl, ⟨l, a, b, rfl, ha, hb⟩ | ⟨l, a, b, rfl, ha, hb⟩ |
    ⟨l, a, b, d, rfl, ha, hb, hd⟩ | ⟨l, a, b, d, rfl, ha, hb, hd⟩⟩ := choice_cases h
  · rwa [heq]
  · exact tidy_if hP ha (tidy_asStatement hP hb) nofun
  · exact tidy_if hP (tidy_negation hP ha) (tidy_asStatement hP hb) nofun
  · exact tidy_if hP ha (tidy_asStatement hP hb) (by rintro _ ⟨⟩; exact tidy_asStatement hP hd)
  · exact tidy_if hP ha (tidy_returning hP hb) (by rintro _ ⟨⟩; exact tidy_returning hP hd)

theorem weight_returning (line : Option Nat) (m : Node) : (returning line m).weight ≤ 1 + m.weight := by
  rw [returning, Node.weight_mk]
  split_ifs <;> simp [Form.children, Form.ownWeight]

theorem weight_choice (h : Tidy P c (.mk line form)) {m : Node}
    (hm : m ∈ (choice line form).children) : m.weight < (Node.mk line form).weight := by
  obtain heq | ⟨rfl, ⟨l, a, b, rfl, ha, hb⟩ | ⟨l, a, b, rfl, ha, hb⟩ |
    ⟨l, a, b, d, rfl, ha, hb, hd⟩ | ⟨l, a, b, d, rfl, ha, hb, hd⟩⟩ := choice_cases h
  · rw [heq] at hm
    exact Node.weight_lt_of_mem hm
  · rw [choice, asStatement_of_tidy hb] at hm
    simp only [Form.children, Option.toList_none, List.mem_cons, List.not_mem_nil, or_false] at hm
    have := one_le_weight b
    rcases hm with rfl | rfl <;> simp [Node.weight_mk, Form.children, Form.ownWeight] <;> omega
  · rw [choice, asStatement_of_tidy hb, negation_of_tidy ha] at hm
    simp only [Form.children, Option.toList_none, List.mem_cons, List.not_mem_nil, or_false] at hm
    have := one_le_weight b
    have := one_le_weight a
    rcases hm with rfl | rfl <;> simp [Node.weight_mk, Form.children, Form.ownWeight] <;> omega
  · rw [choice, asStatement_of_tidy hb, asStatement_of_tidy hd] at hm
    simp only [Form.children, Option.toList_some, List.mem_cons, List.not_mem_nil, or_false] at hm
    have := one_le_weight a
    rcases hm with rfl | rfl | rfl <;>
      simp [Node.weight_mk, Form.children, Form.ownWeight] <;> omega
  · simp only [choice, Form.children, Option.toList_some, List.mem_cons, List.not_mem_nil,
      or_false] at hm
    have hb' := weight_returning line b
    have hd' := weight_returning line d
    have := one_le_weight a
    rcases hm with rfl | rfl | rfl <;>
      simp [Node.weight_mk, Form.children, Form.ownWeight] <;> omega

theorem choice_of_isRewritable (line : Option Nat) (hr : form.isRewritable = true)
    (hv : form.returnsVoid = false) :
    ∃ condition body alternative, choice line form = .ifElse condition body alternative := by
  unfold Form.isRewritable at hr
  split at hr
  · rename_i value
    obtain ⟨l, inner⟩ := value
    cases inner with
    | binary operator left right =>
      obtain rfl | rfl : operator = "&&" ∨ operator = "||" := by
        simpa [Form.isShortcut, Node.form] using hr
      · exact ⟨_, _, _, rfl⟩
      · exact ⟨_, _, _, rfl⟩
    | conditional => exact ⟨_, _, _, rfl⟩
    | _ => cases hr
  · rename_i value
    obtain ⟨l, inner⟩ := value
    cases inner with
    | conditional => exact ⟨_, _, _, rfl⟩
    | unary operator operand =>
      have hvoid : (Form.unary operator operand).isVoid = true := by
        simpa [Form.isConditional, Node.form] using hr
      cases hvoid.symm.trans hv
    | _ => cases hr
  · cases hr

theorem choice_of_not_isRewritable (line : Option Nat) (hr : form.isRewritable = false) :
    choice line form = form := by
  unfold choice
  split
  · cases hr
  · cases hr
  · cases hr
  · cases hr
  · rfl

theorem isRewritable_choice (line : Option Nat) (hv : form.returnsVoid = false) :
    (choice line form).isRewritable = false := by
  cases hr : form.isRewritable with
  | true =>
    obtain ⟨condition, body, alternative, heq⟩ := choice_of_isRewritable line hr hv
    rw [heq]
    rfl
  | false => rwa [choice_of_not_isRewritable line hr]

/-! ## Returns of `void` -/

/-- A `return`, at a line, of the `void` of an operand. -/
def returnVoid (line inner : Option Nat) (operand : Node) : Node :=
  .mk line (.exit .returning (some (.mk inner (.unary "void" operand))))

theorem splitVoid_cases (h : Tidy P c n) :
    splitVoid n = [n] ∨ c = .statement ∧ ∃ l l' operand, n = returnVoid l l' operand ∧
      Tidy P .expression operand ∧
      (splitVoid n = [.mk l (.exit .returning none)] ∧ isLiteral operand = true ∨
        splitVoid n = [.mk operand.line (.simple operand), .mk l (.exit .returning none)]) := by
  unfold splitVoid
  split
  · rename_i l l' operand
    have hc : c = .statement := by
      have := h.fits
      cases c <;> first | rfl | cases this
    subst hc
    have hvoid : Tidy P .expression (.mk l' (.unary "void" operand)) :=
      h.part (p := (.expression, _)) (.head _)
    have ho : Tidy P .expression operand := hvoid.part (p := (.expression, _)) (.head _)
    refine .inr ⟨rfl, l, l', operand, rfl, ho, ?_⟩
    dsimp only
    split_ifs with hl
    · exact .inl ⟨rfl, hl⟩
    · exact .inr (by rw [asStatement_of_tidy ho])
  · exact .inl rfl

theorem tidy_splitVoid (hP : Stable P) (h : Tidy P c n) {m : Node} (hm : m ∈ splitVoid n) :
    Tidy P c m := by
  obtain hs | ⟨rfl, l, l', operand, rfl, ho, ⟨hs, -⟩ | hs⟩ := splitVoid_cases h
  · cases List.mem_singleton.1 (hs ▸ hm)
    exact h
  · cases List.mem_singleton.1 (hs ▸ hm)
    exact tidy_return hP nofun
  · rw [hs, List.mem_cons, List.mem_singleton] at hm
    rcases hm with rfl | rfl
    · exact tidy_simple hP ho
    · exact tidy_return hP nofun

theorem splitVoid_of_not_returnsVoid (hv : n.form.returnsVoid = false) : splitVoid n = [n] := by
  unfold splitVoid
  split
  · cases hv
  · rfl

theorem category_of_returnsVoid (h : Tidy P c n) (hv : n.form.returnsVoid = true) :
    c = .statement := by
  have hf := h.fits
  obtain ⟨line, form⟩ := n
  cases form with
  | exit kind value => cases c <;> first | rfl | cases hf
  | _ => cases hv

theorem returnsVoid_of_mem_splitVoid (h : Tidy P c n) {m : Node} (hm : m ∈ splitVoid n) :
    m.form.returnsVoid = false := by
  obtain hs | ⟨rfl, l, l', operand, rfl, ho, ⟨hs, -⟩ | hs⟩ := splitVoid_cases h
  · cases List.mem_singleton.1 (hs ▸ hm)
    -- A `return` of `void` never stays as it is.
    unfold splitVoid at hs
    split at hs
    · dsimp only at hs
      split_ifs at hs <;> simp at hs
    · rename_i hne
      obtain ⟨line, form⟩ := n
      unfold Form.returnsVoid Node.form
      dsimp only
      split
      · rename_i value
        obtain ⟨l, inner⟩ := value
        cases inner with
        | unary operator operand =>
          simp only [Form.isVoid, decide_eq_false_iff_not]
          rintro rfl
          exact hne _ _ _ rfl
        | _ => rfl
      · rfl
  · cases List.mem_singleton.1 (hs ▸ hm)
    rfl
  · rw [hs, List.mem_cons, List.mem_singleton] at hm
    rcases hm with rfl | rfl <;> rfl

theorem returnsVoid_wrap (hP : Stable P) (h : Tidy P c n) :
    (wrap n (splitVoid n)).form.returnsVoid = false := by
  by_cases hl : (splitVoid n).length = 1
  · obtain ⟨part, heq⟩ := List.length_eq_one_iff.1 hl
    have hm : part ∈ splitVoid n := by simp [heq]
    rw [heq, wrap_singleton (tidy_splitVoid hP h hm)]
    exact returnsVoid_of_mem_splitVoid h hm
  · rw [wrap_of_length_ne (fun m hm => ⟨c, tidy_splitVoid hP h hm⟩) hl]
    rfl

theorem splitVoid_of_branch (h : Tidy P .branch n) : splitVoid n = [n] := by
  obtain hs | ⟨hc, -⟩ := splitVoid_cases h
  · exact hs
  · cases hc

theorem expand_of_branch (h : Tidy P .branch n) : expand n = [n] := by
  have hf := h.fits
  obtain ⟨line, form⟩ := n
  cases form with
  | branch test body => exact expand_of_none rfl
  | _ => cases hf

theorem cost_splitVoid {own : Form Node → Nat} {unit : Nat} (hP : Stable P) (ho : IsCost own unit)
    (h : Tidy P .statement n) :
    ((splitVoid n).map (Node.total own)).sum ≤ n.total own ∧
      (wrap n (splitVoid n)).total own ≤ n.total own := by
  have hwrap := total_wrap_le (n := n) ho fun m hm => tidy_splitVoid hP h hm
  have hbare : ∀ l, (Node.mk l (.exit .returning none)).total own = unit := fun l => by
    rw [Node.total_mk, ho.of_plain _ rfl rfl]
    rfl
  obtain hs | ⟨-, l, l', operand, rfl, ho', hs⟩ := splitVoid_cases h
  · rw [hs, wrap_singleton h]
    simp
  · have hvoid : (returnVoid l l' operand).total own =
        unit + (own (.unary "void" operand) + operand.total own) := by
      rw [returnVoid, Node.total_mk, ho.of_plain _ rfl rfl]
      simp [Form.children, Node.total_mk]
    have := ho.unary "void" operand
    obtain ⟨hs, -⟩ | hs := hs
    · rw [hs] at hwrap ⊢
      simp only [List.map_cons, List.map_nil, List.sum_cons, List.sum_nil, hbare, hvoid] at hwrap ⊢
      omega
    · have hsimple : (Node.mk operand.line (.simple operand)).total own =
          unit + operand.total own := by
        rw [Node.total_mk, ho.of_plain _ rfl rfl]
        simp [Form.children]
      rw [hs] at hwrap ⊢
      simp only [List.map_cons, List.map_nil, List.sum_cons, List.sum_nil, hbare, hvoid,
        hsimple] at hwrap ⊢
      omega

end Normal

end Debundle
