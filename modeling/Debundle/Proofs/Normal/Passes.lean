import Debundle.Proofs.Normal.Conditionals
import Debundle.Writing.Layout

/-!
# Passes of the normaliser

A pass over a normal form can only split statements, and every split removes a sequence. So the
passes come to an end, after at most one more than there are sequences (`exists_last_pass`), and
one pass is enough where the rules for sequences and those for conditionals are not applied
together (`normalize_twice`). Applied together one pass can leave a statement to the next.
-/
namespace Debundle

namespace Form

/-- Sequences by commas. -/
def comma {α : Type} (form : Form α) : Nat :=
  if form.isSequence then 1 else 0

/-- The nodes that minifiers write for something else. -/
def isMinified {α : Type} : Form α → Bool
  | sequence _ | conditional .. | number _ => true
  | binary operator _ _ => operator = "&&" || operator = "||"
  | unary operator _ => operator = "void"
  | _ => false

end Form

namespace Node

/-- The number of sequences in a tree. -/
def commas : Node → Nat :=
  total Form.comma

theorem commas_mk (line : Option Nat) (form : Form Node) :
    (mk line form).commas = form.comma + (form.children.map commas).sum :=
  total_mk ..

theorem commas_eq_countP (n : Node) : n.commas = n.preorder.countP (·.form.isSequence) := by
  induction n using induct with
  | step line form ih =>
    rw [commas_mk, preorder_mk, List.countP_cons, List.countP_flatten, List.map_map,
      List.map_congr_left ih, Nat.add_comm]
    rfl

/-- The tree after a number of passes. -/
def normalizeTimes (rules : Normal.Rules) : Nat → Node → Except Defect Node
  | 0, n => .ok n
  | times + 1, n => (normalizeTimes rules times n).bind (normalize? rules)

end Node

namespace Normal

variable {P : Form Node → Prop} {c : Category} {n : Node} {line : Option Nat} {form : Form Node}
variable {rules : Rules}

theorem isCost_comma : IsCost Form.comma 0 where
  of_plain form hs _ := by simp [Form.comma, hs]
  sequence items := by simp [Form.comma, Form.isSequence]
  unary _ _ := Nat.zero_le _
  unit_le := Nat.zero_le _

/-! ## No pass adds a sequence -/

theorem comma_of_headOf {form form' : Form Node} (h : headOf form = headOf form') :
    form.comma = form'.comma := by
  have hs : form.isSequence = form'.isSequence := congrArg Head.sequence h
  rw [Form.comma, Form.comma, hs]

theorem comma_map (form : Form Node) (f : Node → Node) : (form.map f).comma = form.comma := by
  cases form <;> rfl

theorem commas_constant (line : Option Nat) (form : Form Node) :
    (Node.mk line (constant form)).commas ≤ (Node.mk line form).commas := by
  obtain heq | ⟨-, heq | heq | ⟨b, heq⟩⟩ := constant_cases form
  · rw [heq]
  all_goals
    rw [heq]
    exact Nat.zero_le _

theorem commas_returning (line : Option Nat) (n : Node) : (returning line n).commas ≤ n.commas := by
  rw [returning, Node.commas_mk]
  split_ifs <;> simp [Form.children, Form.comma, Form.isSequence]

theorem commas_choice (h : Tidy P c (.mk line form)) :
    (Node.mk line (choice line form)).commas ≤ (Node.mk line form).commas := by
  obtain heq | ⟨rfl, ⟨l, a, b, rfl, ha, hb⟩ | ⟨l, a, b, rfl, ha, hb⟩ |
    ⟨l, a, b, d, rfl, ha, hb, hd⟩ | ⟨l, a, b, d, rfl, ha, hb, hd⟩⟩ := choice_cases h
  · rw [heq]
  · rw [choice, asStatement_of_tidy hb]
    simp [Node.commas_mk, Form.children, Form.comma, Form.isSequence]
  · rw [choice, asStatement_of_tidy hb, negation_of_tidy ha]
    simp [Node.commas_mk, Form.children, Form.comma, Form.isSequence]
  · rw [choice, asStatement_of_tidy hb, asStatement_of_tidy hd]
    simp [Node.commas_mk, Form.children, Form.comma, Form.isSequence]
  · have hb' := commas_returning line b
    have hd' := commas_returning line d
    rw [choice]
    simp only [Node.commas_mk line, Node.commas_mk l, Form.children, Form.comma, Form.isSequence,
      Bool.false_eq_true, if_false, Option.toList_some, List.map_cons, List.map_nil, List.sum_cons,
      List.sum_nil]
    omega

theorem commas_map_le {f : Node → Node} (h : ∀ m ∈ form.children, (f m).commas ≤ m.commas) :
    (Node.mk line (form.map f)).commas ≤ (Node.mk line form).commas := by
  rw [Node.commas_mk, Node.commas_mk, comma_map, Form.children_map, List.map_map]
  exact Nat.add_le_add_left (List.sum_le_sum h) _

theorem commas_map_lt {f : Node → Node} (h : ∀ m ∈ form.children, (f m).commas ≤ m.commas)
    (hn : n ∈ form.children) (hlt : (f n).commas < n.commas) :
    (Node.mk line (form.map f)).commas < (Node.mk line form).commas := by
  rw [Node.commas_mk, Node.commas_mk, comma_map, Form.children_map, List.map_map]
  exact Nat.add_lt_add_left (List.sum_lt_sum _ _ h ⟨n, hn, hlt⟩) _

section Passes

variable (hP : Stable P) (hn : Names P rules)

include hP hn

theorem commas_settle (h : Tidy P c (.mk line form)) :
    (Node.mk line (settle rules line form)).commas ≤ (Node.mk line form).commas := by
  have hconstants : (Node.mk line (afterConstants rules form)).commas ≤ (Node.mk line form).commas := by
    unfold afterConstants
    split_ifs
    · exact commas_constant line form
    · exact le_rfl
  have hchoice : (Node.mk line (afterChoice rules line form)).commas ≤ (Node.mk line form).commas := by
    unfold afterChoice
    split_ifs
    · exact (commas_choice (tidy_afterConstants hP hn h)).trans hconstants
    · exact hconstants
  have hsum := (sum_settle_le hP hn isCost_comma h).trans (sum_afterSplits_le hP hn isCost_comma h)
  have hhead : (settle rules line form).comma = (afterChoice rules line form).comma :=
    comma_of_headOf ((headOf_settle hP hn h).trans (headOf_afterChoice line form).symm)
  rw [Node.commas_mk] at hchoice ⊢
  rw [hhead]
  exact (Nat.add_le_add_left hsum _).trans hchoice

theorem commas_normalizeUpTo (h : Tidy P c n) (fuel : Nat) :
    (normalizeUpTo rules fuel n).commas ≤ n.commas := by
  induction fuel generalizing c n with
  | zero => exact le_rfl
  | succ fuel ih =>
    obtain ⟨line, form⟩ := n
    refine (commas_map_le fun m hm => ?_).trans (commas_settle hP hn h)
    obtain ⟨d, hd⟩ := (tidy_settle hP hn h).child hm
    exact ih hd

/-! ## A pass that splits removes a sequence -/

theorem commas_settle_lt (h : Tidy P c (.mk line form))
    (hr : AtRest { rules with sequences := false } form) (hs : rules.sequences = true)
    (hfree : n ∈ form.freeStatements) (hsplit : split? n ≠ none) :
    (Node.mk line (settle rules line form)).commas < (Node.mk line form).commas := by
  have ht := tidy_of_mem_freeStatements h hfree
  have hlt := sum_expand_lt hP isCost_comma ht hsplit
  have hwrap : (wrap n (expand n)).commas ≤ 0 + ((expand n).map Node.commas).sum :=
    total_wrap_le isCost_comma (tidy_expand hP ht)
  have hsplits : ((afterSplits rules line form).children.map Node.commas).sum <
      (form.children.map Node.commas).sum := by
    rw [afterSplits, if_pos hs, afterChoice_of_atRest hr]
    exact sum_splitBodies_lt h (fun _ => expand_of_branch) (fun _ => cost_expand hP isCost_comma)
      hfree ⟨hlt, (hwrap.trans_eq (Nat.zero_add _)).trans_lt hlt⟩
  rw [Node.commas_mk, Node.commas_mk, comma_of_headOf (headOf_settle hP hn h)]
  exact Nat.add_lt_add_left ((sum_settle_le hP hn isCost_comma h).trans_lt hsplits) _

/-- A pass over a tree in which only statements can be split leaves as many sequences as there were
only if nothing can be split. -/
theorem atRest_of_commas_le {fuel : Nat} (h : Tidy P c n)
    (hr : ∀ m ∈ n.preorder, AtRest { rules with sequences := false } m.form)
    (hw : n.weight ≤ fuel) (hle : n.commas ≤ (normalizeUpTo rules fuel n).commas) :
    ∀ m ∈ n.preorder, AtRest rules m.form := by
  induction fuel generalizing c n with
  | zero =>
    have := n.one_le_weight
    omega
  | succ fuel ih =>
    obtain ⟨line, form⟩ := n
    have hown : AtRest { rules with sequences := false } form := hr _ (Node.mem_preorder_self _)
    have below : ∀ k ∈ form.children, ∀ m ∈ k.preorder,
        AtRest { rules with sequences := false } m.form :=
      fun k hk m hm => hr m (Node.mem_preorder_of_child hk hm)
    -- No child may lose a sequence, neither when the node is settled nor later.
    have hrest : AtRest rules form := ⟨hown.constants, hown.conditionals, fun hs k hk => by
      by_contra hsplit
      have hlt := commas_settle_lt hP hn h hown hs hk hsplit
      have hmap : (normalizeUpTo rules (fuel + 1) (.mk line form)).commas ≤
          (Node.mk line (settle rules line form)).commas := commas_map_le fun m hm => by
        obtain ⟨d, hd⟩ := (tidy_settle hP hn h).child hm
        exact commas_normalizeUpTo hP hn hd fuel
      omega⟩
    have hsettle : settle rules line form = form := settle_of_atRest h hrest fun hc k hk =>
      returnsVoid_of_not_isRewritable ((below k hk k k.mem_preorder_self).conditionals hc)
    rw [normalizeUpTo, hsettle] at hle
    have hchild : ∀ k ∈ form.children, (normalizeUpTo rules fuel k).commas ≤ k.commas :=
      fun k hk => by
        obtain ⟨d, hd⟩ := h.child hk
        exact commas_normalizeUpTo hP hn hd fuel
    intro m hm
    rw [Node.preorder_mk, List.mem_cons, List.mem_flatten] at hm
    obtain rfl | ⟨_, hb, hm⟩ := hm
    · exact hrest
    · obtain ⟨k, hk, rfl⟩ := List.mem_map.1 hb
      obtain ⟨d, hd⟩ := h.child hk
      have hlt : k.weight < (Node.mk line form).weight := Node.weight_lt_of_mem hk
      refine ih hd (below k hk) (by omega) ?_ m hm
      by_contra hlt
      have : (Node.mk line (form.map (normalizeUpTo rules fuel))).commas <
          (Node.mk line form).commas := commas_map_lt hchild hk (by omega)
      omega

end Passes

/-! ## Passes over whole programs -/

theorem returnsVoid_of_program (h : Tidy P .program n) : n.form.returnsVoid = false := by
  by_contra hv
  cases category_of_returnsVoid h (by simpa using hv)

/-- The trees that come of normalising a program. -/
structure IsNormalized (rules : Rules) (n : Node) : Prop where
  tidy : Tidy (fun _ => True) .program n
  atRest : ∀ m ∈ n.preorder, AtRest { rules with sequences := false } m.form

theorem isNormalized_normalize (h : Tidy P .program n) :
    IsNormalized rules (n.normalize rules) where
  tidy := tidy_true_normalizeUpTo h _
  atRest := atRest_normalizeUpTo_of_sequences stable_true names_true (h.mono fun _ _ => trivial)
    le_rfl fun _ => returnsVoid_of_program h

theorem IsNormalized.normalize_eq_self_iff (h : IsNormalized rules n) :
    n.normalize rules = n ↔ ∀ m ∈ n.preorder, AtRest rules m.form := by
  refine ⟨fun heq => ?_, fun hr => normalizeUpTo_of_atRest h.tidy hr _⟩
  refine atRest_of_commas_le stable_true names_true h.tidy h.atRest le_rfl ?_
  exact le_of_eq (congrArg Node.commas heq.symm)

theorem IsNormalized.commas_lt (h : IsNormalized rules n) (hne : n.normalize rules ≠ n) :
    (n.normalize rules).commas < n.commas := by
  by_contra hle
  refine hne (h.normalize_eq_self_iff.2 ?_)
  exact atRest_of_commas_le stable_true names_true h.tidy h.atRest le_rfl (Nat.le_of_not_lt hle)

theorem IsNormalized.exists_iterate {bound : Nat} (h : IsNormalized rules n)
    (hb : n.commas ≤ bound) :
    ∃ times ≤ bound, (Node.normalize rules)^[times + 1] n = (Node.normalize rules)^[times] n := by
  induction bound generalizing n with
  | zero =>
    refine ⟨0, le_rfl, ?_⟩
    by_contra hne
    have := h.commas_lt hne
    omega
  | succ bound ih =>
    by_cases heq : n.normalize rules = n
    · exact ⟨0, Nat.zero_le _, heq⟩
    · have := h.commas_lt heq
      obtain ⟨times, hle, ht⟩ := ih (isNormalized_normalize h.tidy) (by omega)
      exact ⟨times + 1, by omega, ht⟩

theorem normalizeTimes_of_tidy (h : Tidy P .program n) (times : Nat) :
    n.normalizeTimes rules times = .ok ((Node.normalize rules)^[times] n) ∧
      Tidy (fun _ => True) .program ((Node.normalize rules)^[times] n) := by
  induction times with
  | zero => exact ⟨rfl, h.mono fun _ _ => trivial⟩
  | succ times ih =>
    rw [Node.normalizeTimes, ih.1, Function.iterate_succ_apply']
    exact ⟨normalize?_of_tidy ih.2, tidy_true_normalizeUpTo ih.2 _⟩

end Normal

theorem tidy_of_parse {file text : String} {t u : Node} (h : (parse file text).result = .ok t)
    (hu : u = t ∨ t.resolve = .ok u) : Tidy (fun _ => True) .program u := by
  obtain rfl | hu := hu
  · exact (shaped_of_parse h).tidy.mono fun _ _ => trivial
  · obtain ⟨r, hr, hs⟩ := exists_resolve (shaped_of_parse h)
    cases hr.symm.trans hu
    exact hs.tidy.mono fun _ _ => trivial

theorem Node.commas_le_countP (n : Node) :
    n.commas ≤ n.preorder.countP (·.form.isMinified) := by
  rw [commas_eq_countP]
  refine List.countP_mono_left fun m _ hm => ?_
  obtain ⟨line, form⟩ := m
  cases form with
  | sequence => rfl
  | _ => cases hm

namespace Normal

theorem stable_isExposed : Stable fun form : Form Node => isExposed form = false where
  of_isFree := by
    intro form h
    cases form with
    | binary | conditional | unary => cases h
    | _ => rfl
  negation := rfl
  withObject _ := rfl
  assign _ := rfl

end Normal

open Normal

/-- Every program comes to rest under repeated passes, whichever rules are applied: after a number
of passes that is at most one more than the number of nodes that minifiers write for something
else, no further pass changes anything. -/
theorem exists_last_pass {file text : String} {t u : Node} (rules : Rules)
    (h : (parse file text).result = .ok t) (hu : u = t ∨ t.resolve = .ok u) :
    ∃ times ≤ u.preorder.countP (·.form.isMinified) + 1, ∃ v,
      ∀ later ≥ times, u.normalizeTimes rules later = .ok v := by
  have htidy := tidy_of_parse h hu
  have hnormal : IsNormalized rules (u.normalize rules) := isNormalized_normalize htidy
  have hle : (u.normalize rules).commas ≤ u.commas :=
    commas_normalizeUpTo stable_true names_true htidy _
  obtain ⟨times, ht, hlast⟩ := hnormal.exists_iterate hle
  refine ⟨times + 1, by have := u.commas_le_countP; omega, (Node.normalize rules)^[times + 1] u,
    fun later hlater => ?_⟩
  have hfix : ((Node.normalize rules)^[times + 1] u).normalize rules =
      (Node.normalize rules)^[times + 1] u :=
    (Function.iterate_succ_apply' _ (times + 1) u).symm.trans hlast
  obtain ⟨more, rfl⟩ := Nat.exists_eq_add_of_le' hlater
  rw [(normalizeTimes_of_tidy htidy _).1, Function.iterate_add_apply, Function.iterate_fixed hfix]

/-- A sequence in front of an `&&`: the first pass makes an `if` of the statement, the second one
takes the sequence out of its condition. -/
def guardedCall : String :=
  "(a, b) && c();"

theorem print_guardedCall :
    ((parse unnamedFile guardedCall).result.toOption.bind fun t =>
      t.resolve.toOption.bind fun resolved =>
      (resolved.normalize? ⟨true, true, true⟩).toOption.bind fun normal =>
      (normal.normalize? ⟨true, true, true⟩).toOption.bind fun again =>
      some (normal.print {}, again.print {})) =
      some (.ok "if (a, b) \x7b\n    c();\n\x7d", .ok "a;\n\nif (b) \x7b\n    c();\n\x7d") := by
  decide +kernel

theorem exists_parse_guardedCall : ∃ t, (parse unnamedFile guardedCall).result = .ok t := by
  obtain ⟨t, ht, -⟩ := Option.bind_eq_some_iff.1 print_guardedCall
  exact ⟨t, eq_ok_of_toOption ht⟩

theorem exists_last_pass_guardedCall :
    ∃ t, (parse unnamedFile guardedCall).result = .ok t ∧
      ∃ times ≤ t.preorder.countP (·.form.isMinified) + 1, ∃ v,
        ∀ later ≥ times, t.normalizeTimes ⟨true, true, true⟩ later = .ok v := by
  obtain ⟨t, ht⟩ := exists_parse_guardedCall
  exact ⟨t, ht, exists_last_pass ⟨true, true, true⟩ ht (.inl rfl)⟩

/-- Where the rules for sequences and those for conditionals are not applied together, one pass is
enough: a second one changes nothing, no statement in a list or under the control of another can
be split any more if sequences were to be split, and no statement that the rules for conditionals
rewrite is left if these were to be applied. -/
theorem normalize_twice {file text : String} {t : Node} (rules : Rules)
    (h : (parse file text).result = .ok t)
    (hr : ¬ (rules.sequences = true ∧ rules.conditionals = true)) :
    ∃ resolved normal, t.resolve = .ok resolved ∧ resolved.normalize? rules = .ok normal ∧
      normal.normalize? rules = .ok normal ∧
      (rules.sequences = true →
        ∀ m ∈ normal.preorder, ∀ k ∈ m.form.freeStatements, split? k = none) ∧
      (rules.conditionals = true → ∀ m ∈ normal.preorder, m.form.isRewritable = false) := by
  obtain ⟨resolved, hres, -⟩ := exists_resolve (shaped_of_parse h)
  have htidy := tidy_of_parse h (.inr hres)
  have hnormal : IsNormalized rules (resolved.normalize rules) := isNormalized_normalize htidy
  have hrest : ∀ m ∈ (resolved.normalize rules).preorder, AtRest rules m.form := by
    cases hs : rules.sequences with
    | false =>
      intro m hm
      have hm := hnormal.atRest m hm
      exact ⟨hm.constants, hm.conditionals, fun hs' => nomatch hs.symm.trans hs'⟩
    | true =>
      exact atRest_normalizeUpTo stable_true names_true (fun hc => absurd ⟨hs, hc⟩ hr) htidy le_rfl
        fun _ => returnsVoid_of_program htidy
  refine ⟨resolved, resolved.normalize rules, hres, normalize?_of_tidy htidy, ?_,
    fun hs m hm => (hrest m hm).sequences hs, fun hc m hm => (hrest m hm).conditionals hc⟩
  rw [normalize?_of_tidy hnormal.tidy, hnormal.normalize_eq_self_iff.2 hrest]

theorem normalize_twice_guardedCall :
    ∃ t, (parse unnamedFile guardedCall).result = .ok t ∧
      ∃ resolved normal, t.resolve = .ok resolved ∧
        resolved.normalize? ⟨true, true, false⟩ = .ok normal ∧
        normal.normalize? ⟨true, true, false⟩ = .ok normal ∧
        (true = true → ∀ m ∈ normal.preorder, ∀ k ∈ m.form.freeStatements, split? k = none) ∧
        (false = true → ∀ m ∈ normal.preorder, m.form.isRewritable = false) := by
  obtain ⟨t, ht⟩ := exists_parse_guardedCall
  exact ⟨t, ht, normalize_twice ⟨true, true, false⟩ ht (by decide)⟩

/-- A second pass with all rules. It changes nothing exactly if the first one left no statement, in
a list or under the control of another, that can be split; and this is so if no sequence is the
left operand of an `&&`, the condition of a conditional or the operand of a `void`, and no
assignment of a sequence is the operand of a `void`. The other rules are at rest in any case. -/
theorem normalize_again_iff {file text : String} {t : Node}
    (h : (parse file text).result = .ok t) :
    ∃ resolved normal, t.resolve = .ok resolved ∧
      resolved.normalize? ⟨true, true, true⟩ = .ok normal ∧
      (normal.normalize? ⟨true, true, true⟩ = .ok normal ↔
        ∀ m ∈ normal.preorder, ∀ k ∈ m.form.freeStatements, split? k = none) ∧
      ((∀ m ∈ resolved.preorder, isExposed m.form = false) →
        normal.normalize? ⟨true, true, true⟩ = .ok normal) ∧
      ∀ m ∈ normal.preorder, constant m.form = m.form ∧ m.form.isRewritable = false := by
  obtain ⟨resolved, hres, -⟩ := exists_resolve (shaped_of_parse h)
  have htidy := tidy_of_parse h (.inr hres)
  have hnormal : IsNormalized ⟨true, true, true⟩ (resolved.normalize ⟨true, true, true⟩) :=
    isNormalized_normalize htidy
  have hagain : (resolved.normalize ⟨true, true, true⟩).normalize? ⟨true, true, true⟩ =
      .ok (resolved.normalize ⟨true, true, true⟩) ↔
      ∀ m ∈ (resolved.normalize ⟨true, true, true⟩).preorder, AtRest ⟨true, true, true⟩ m.form := by
    rw [normalize?_of_tidy hnormal.tidy, Except.ok.injEq]
    exact hnormal.normalize_eq_self_iff
  refine ⟨resolved, resolved.normalize ⟨true, true, true⟩, hres, normalize?_of_tidy htidy,
    hagain.trans ⟨fun hr m hm => (hr m hm).sequences rfl, fun hs m hm => ?_⟩, fun hx => ?_,
    fun m hm => ⟨(hnormal.atRest m hm).constants rfl, (hnormal.atRest m hm).conditionals rfl⟩⟩
  · exact ⟨(hnormal.atRest m hm).constants, (hnormal.atRest m hm).conditionals, fun _ => hs m hm⟩
  · exact hagain.2 (atRest_normalizeUpTo stable_isExposed (fun _ => ⟨rfl, rfl⟩) (fun _ _ => id)
      ((htidy.and_of_preorder hx).mono fun _ => And.right) le_rfl fun _ => returnsVoid_of_program htidy)

theorem normalize_again_guardedCall :
    ∃ t, (parse unnamedFile guardedCall).result = .ok t ∧
      ∃ resolved normal, t.resolve = .ok resolved ∧
        resolved.normalize? ⟨true, true, true⟩ = .ok normal ∧
        (normal.normalize? ⟨true, true, true⟩ = .ok normal ↔
          ∀ m ∈ normal.preorder, ∀ k ∈ m.form.freeStatements, split? k = none) ∧
        ((∀ m ∈ resolved.preorder, isExposed m.form = false) →
          normal.normalize? ⟨true, true, true⟩ = .ok normal) ∧
        ∀ m ∈ normal.preorder, constant m.form = m.form ∧ m.form.isRewritable = false := by
  obtain ⟨t, ht⟩ := exists_parse_guardedCall
  exact ⟨t, ht, normalize_again_iff ht⟩

/-- The two passes over `guardedCall` give different programs. -/
theorem normalize_guardedCall_changes :
    ∃ t resolved normal again, (parse unnamedFile guardedCall).result = .ok t ∧
      t.resolve = .ok resolved ∧ resolved.normalize? ⟨true, true, true⟩ = .ok normal ∧
      normal.normalize? ⟨true, true, true⟩ = .ok again ∧ again ≠ normal ∧
      normal.print {} = .ok "if (a, b) \x7b\n    c();\n\x7d" ∧
      again.print {} = .ok "a;\n\nif (b) \x7b\n    c();\n\x7d" := by
  have hprints := print_guardedCall
  simp only [Option.bind_eq_some_iff, Option.some.injEq, Prod.mk.injEq] at hprints
  obtain ⟨t, ht, resolved, hr, normal, hn, again, ha, hp, hp'⟩ := hprints
  refine ⟨t, resolved, normal, again, eq_ok_of_toOption ht, eq_ok_of_toOption hr,
    eq_ok_of_toOption hn, eq_ok_of_toOption ha, ?_, hp, hp'⟩
  rintro rfl
  exact absurd (hp.symm.trans hp') (by decide)

end Debundle
