import Debundle.Proofs.Normal.Meanings
import Debundle.Proofs.Reading.Shape
import Debundle.Proofs.Scope.Homes

/-!
# The rules for conditionals keep the meaning

Operator statements, returned conditionals and returns of `void` are rewritten to `if` statements
and bare returns. Each rewriting keeps the shape of a tree and its meaning in every semantics, so a
normalised tree means what the tree means (`meaning_normalizeUpTo`).
-/
namespace Debundle

namespace Normal

open BigStep

variable {State Value Declared Part : Type} {S : Semantics State Value Declared Part}
variable {c : Category} {n : Node} {body : List Node} {line : Option Nat} {form : Form Node}

theorem stable_isResolved :
    Stable fun form : Form Node => form.IsResolved ∧ form.isNamedConstant = false where
  of_isFree := by
    intro form h
    cases form <;> first | exact ⟨trivial, rfl⟩ | cases h
  negation := ⟨trivial, rfl⟩
  withObject _ := ⟨trivial, rfl⟩
  assign _ := ⟨trivial, rfl⟩

theorem shaped_splitVoid (h : ResolvedAs c n) : ∀ m ∈ splitVoid n, ResolvedAs c m :=
  fun _ hm => (tidy_splitVoid stable_isResolved h.tidy hm).shaped

/-! ## Meanings of the rewritten statements -/

section Meanings

open Evaluation Execution

theorem meaning_return {e : Evaluation State Value} (he : S.meaning n = .expression e) :
    S.meaning (.mk line (.exit .returning (some n))) =
      .statement (.plain (e.exec fun v => done (.returned v))) := by
  rw [S.meaning_mk, Form.map, Option.map_some, he, S.return_law]

theorem meaning_bareReturn :
    S.meaning (.mk line (.exit .returning none)) =
      .statement (.plain (done (.returned S.undefined))) := by
  rw [S.meaning_mk, Form.map, Option.map_none, S.bareReturn_law]

theorem meaning_void {e : Evaluation State Value} (he : S.meaning n = .expression e) :
    S.meaning (.mk line (.unary "void" n)) = .expression (e.bind fun _ => pure S.undefined) := by
  rw [S.meaning_mk, Form.map, he, S.void_law]

theorem meaning_not {e : Evaluation State Value} (he : S.meaning n = .expression e) :
    S.meaning (.mk line (.unary "!" n)) =
      .expression (e.bind fun v => pure (S.ofBool !S.truthy v)) := by
  rw [S.meaning_mk, Form.map, he, S.not_law]

section Operators

variable {a b d : Node} {e f g : Evaluation State Value}

theorem meaning_and (he : S.meaning a = .expression e) (hf : S.meaning b = .expression f) :
    S.meaning (.mk line (.binary "&&" a b)) =
      .expression (e.bind fun v => if S.truthy v then f else pure v) := by
  rw [S.meaning_mk, Form.map, he, hf, S.and_law]

theorem meaning_or (he : S.meaning a = .expression e) (hf : S.meaning b = .expression f) :
    S.meaning (.mk line (.binary "||" a b)) =
      .expression (e.bind fun v => if S.truthy v then pure v else f) := by
  rw [S.meaning_mk, Form.map, he, hf, S.or_law]

theorem meaning_conditional (he : S.meaning a = .expression e) (hf : S.meaning b = .expression f)
    (hg : S.meaning d = .expression g) :
    S.meaning (.mk line (.conditional a b d)) =
      .expression (e.bind fun v => if S.truthy v then f else g) := by
  rw [S.meaning_mk, Form.map, he, hf, hg, S.conditional_law]

theorem meaning_if {s : Execution State Value} (he : S.meaning a = .expression e)
    (hs : S.meaning b = .statement (.plain s)) :
    S.meaning (.mk line (.ifElse a b none)) =
      .statement (.plain (e.exec fun v => if S.truthy v then s else done .normal)) := by
  rw [S.meaning_mk, Form.map, he, hs, Option.map_none, S.if_law]
  rfl

theorem meaning_ifElse {s t : Execution State Value} (he : S.meaning a = .expression e)
    (hs : S.meaning b = .statement (.plain s)) (ht : S.meaning d = .statement (.plain t)) :
    S.meaning (.mk line (.ifElse a b (some d))) =
      .statement (.plain (e.exec fun v => if S.truthy v then s else t)) := by
  rw [S.meaning_mk, Form.map, he, hs, Option.map_some, ht, S.ifElse_law]
  rfl

end Operators

theorem meaning_literal (line : Option Nat) (h : form.isLiteral = true) :
    ∃ v, S.meaning (.mk line form) = .expression (pure v) := by
  rw [S.meaning_mk]
  exact S.literal_law _ (by cases form <;> first | rfl | cases h)

theorem return_of_isUndefined (h : ResolvedAs .expression n) (hu : isUndefined n = true)
    {e : Evaluation State Value} (he : S.meaning n = .expression e) :
    (e.exec fun v => done (.returned v)) = done (.returned S.undefined) := by
  unfold isUndefined at hu
  split at hu
  · rename_i l s
    obtain ⟨⟨hrole, hname⟩, hhome⟩ : (s.role = .reference ∧ s.name = "undefined") ∧
        (s.home = none ∨ s.home = some .free) := by simpa using hu
    have hfree : s.home = some .free := by
      have hsome : s.home.isSome = true := h.own
      rcases hhome with h | h
      · simp [h] at hsome
      · exact h
    obtain ⟨role, name, home, shown⟩ := s
    cases hrole
    cases hname
    cases hfree
    rw [S.meaning_mk, Form.map, S.undefined_law] at he
    cases he
    exact exec_pure ..
  · rename_i l l' k
    obtain ⟨v, hv⟩ : ∃ v, S.meaning (.mk l' (.number k)) = _ := meaning_literal l' rfl
    rw [meaning_void hv] at he
    cases he
    rw [exec_bind, exec_pure, exec_pure]
  · rename_i l l' k v parts
    have := (h.part (p := (.expression, .mk l' (.loose (.number k v) parts))) (.head _)).regular
    cases this
  · cases hu

theorem meaning_returning (h : ResolvedAs .expression n) {e : Evaluation State Value}
    (he : S.meaning n = .expression e) :
    S.meaning (returning line n) = .statement (.plain (e.exec fun v => done (.returned v))) := by
  rw [returning, isMissing_of_tidy h.tidy, Bool.or_false]
  split_ifs with hu
  · rw [meaning_bareReturn, return_of_isUndefined h hu he]
  · exact meaning_return he

/-! ## Operator statements and returned conditionals -/

theorem meaning_choice (h : ResolvedAs c (.mk line form)) :
    S.meaning (.mk line (choice line form)) = S.meaning (.mk line form) := by
  obtain heq | ⟨rfl, ⟨l, a, b, rfl, ha, hb⟩ | ⟨l, a, b, rfl, ha, hb⟩ |
    ⟨l, a, b, d, rfl, ha, hb, hd⟩ | ⟨l, a, b, d, rfl, ha, hb, hd⟩⟩ := choice_cases h.tidy
  · rw [heq]
  · obtain ⟨e, he⟩ := S.meaning_expression ha.shaped
    obtain ⟨f, hf⟩ := S.meaning_expression hb.shaped
    rw [choice, asStatement_of_tidy hb, meaning_if he (meaning_simple hf),
      meaning_simple (meaning_and he hf), exec_bind]
    simp only [exec_ite, exec_pure]
  · obtain ⟨e, he⟩ := S.meaning_expression ha.shaped
    obtain ⟨f, hf⟩ := S.meaning_expression hb.shaped
    rw [choice, asStatement_of_tidy hb, negation_of_tidy ha,
      meaning_if (meaning_not he) (meaning_simple hf), meaning_simple (meaning_or he hf),
      exec_bind, exec_bind]
    simp only [exec_ite, exec_pure, S.truthy_ofBool]
    congr 3
    funext v
    cases S.truthy v <;> rfl
  · obtain ⟨e, he⟩ := S.meaning_expression ha.shaped
    obtain ⟨f, hf⟩ := S.meaning_expression hb.shaped
    obtain ⟨g, hg⟩ := S.meaning_expression hd.shaped
    rw [choice, asStatement_of_tidy hb, asStatement_of_tidy hd,
      meaning_ifElse he (meaning_simple hf) (meaning_simple hg),
      meaning_simple (meaning_conditional he hf hg), exec_bind]
    simp only [exec_ite]
  · obtain ⟨e, he⟩ := S.meaning_expression ha.shaped
    obtain ⟨f, hf⟩ := S.meaning_expression hb.shaped
    obtain ⟨g, hg⟩ := S.meaning_expression hd.shaped
    rw [choice, meaning_ifElse he (meaning_returning hb.shaped hf) (meaning_returning hd.shaped hg),
      meaning_return (meaning_conditional he hf hg), exec_bind]
    simp only [exec_ite]

/-! ## Returns of `void` -/

theorem isLiteral_of_shaped (h : ResolvedAs .expression n) (hl : isLiteral n = true) :
    n.form.isLiteral = true := by
  have := h.regular
  obtain ⟨line, form⟩ := n
  cases form <;> first | rfl | (cases hl; done) | cases this

theorem meaning_splitVoid (h : ResolvedAs .statement n) (hs : splitVoid n ≠ [n]) :
    ∃ ss : List (Execution State Value),
      (splitVoid n).map S.meaning = (ss.map Action.plain).map .statement ∧
      S.meaning n = .statement (.all (ss.map Action.plain)) := by
  obtain hs' | ⟨-, l, l', operand, rfl, ho, hs⟩ := splitVoid_cases h.tidy
  · exact absurd hs' hs
  · obtain ⟨e, he⟩ := S.meaning_expression ho.shaped
    rw [returnVoid, meaning_return (meaning_void he), exec_bind] at *
    obtain ⟨hs, hl⟩ | hs := hs
    · have hl := isLiteral_of_shaped ho.shaped hl
      obtain ⟨ol, of⟩ := operand
      obtain ⟨v, hv⟩ := meaning_literal (S := S) ol hl
      cases he.symm.trans hv
      refine ⟨[done (.returned S.undefined)], ?_, ?_⟩
      · rw [hs, List.map_singleton, meaning_bareReturn]
        rfl
      · simp
    · refine ⟨[e.exec fun _ => done .normal, done (.returned S.undefined)], ?_, ?_⟩
      · rw [hs, List.map_cons, List.map_singleton, meaning_simple he, meaning_bareReturn]
        rfl
      · simp [Action.all, Action.plain, exec_next]

theorem all_splitVoid (h : ResolvedAs .statement n) :
    Action.all ((splitVoid n).map S.act) = .all [S.act n] := by
  by_cases hs : splitVoid n = [n]
  · rw [hs]
    rfl
  · obtain ⟨ss, hmap, hm⟩ := meaning_splitVoid (S := S) h hs
    have hact : (splitVoid n).map S.act = ss.map Action.plain := by
      have := congrArg (List.map Meaning.action) hmap
      rwa [List.map_map, List.map_map, List.map_map] at this
    have hn : S.act n = .all (ss.map Action.plain) := by
      rw [Semantics.act, hm, Meaning.action]
    rw [hact, hn]
    simp [Action.all]

theorem meaning_wrap (h : ResolvedAs .statement n) :
    S.meaning (wrap n (splitVoid n)) = S.meaning n := by
  have htidy : ∀ m ∈ splitVoid n, Tidy _ .statement m := fun m hm => (shaped_splitVoid h m hm).tidy
  by_cases hs : splitVoid n = [n]
  · rw [hs, wrap_singleton h.tidy]
  · obtain ⟨ss, hmap, hn⟩ := meaning_splitVoid (S := S) h hs
    by_cases hl : (splitVoid n).length = 1
    · obtain ⟨part, heq⟩ := List.length_eq_one_iff.1 hl
      rw [heq] at htidy hmap ⊢
      rw [wrap_singleton (htidy part (.head _))]
      rw [List.map_singleton, List.map_map] at hmap
      obtain ⟨s, rfl, hs⟩ := List.map_eq_singleton_iff.1 hmap.symm
      rw [hn, ← hs, List.map_singleton, Action.all_plain]
      rfl
    · rw [wrap_of_length_ne (fun m hm => ⟨_, htidy m hm⟩) hl, S.meaning_mk, Form.map, hmap,
        S.block_law, hn]

end Meanings

/-! ## One node -/

theorem meaning_splitBodies (h : ResolvedAs c (.mk line form)) :
    S.meaning (.mk line (splitBodies true splitVoid form)) = S.meaning (.mk line form) := by
  refine meaning_splitBodies_of h (fun n hn => splitVoid_of_branch hn.tidy)
    (fun n => shaped_splitVoid) (fun n => all_splitVoid) (fun g n hn => ?_) ?_
    fun _ n => meaning_wrap
  · cases g <;> simp only [Form.withControlled, Form.map, meaning_wrap hn]
  · rintro condition body alternative rfl
    have single : ∀ n ∈ body :: alternative.toList, S.meaning (wrap n (splitVoid n)) = S.meaning n :=
      fun n hn => meaning_wrap (h.part (p := (.statement, n))
        (by simpa [Node.form, Form.parts_ifElse, Form.many] using hn))
    rw [splitBodies_ifElse, Form.map, Form.map, single body (.head _)]
    cases alternative with
    | none => rfl
    | some other =>
      rw [Option.map_some, Option.map_some, single other (by simp), Option.map_some]

theorem names_isResolved {sequences conditionals : Bool} :
    Names (fun form : Form Node => form.IsResolved ∧ form.isNamedConstant = false)
      ⟨false, sequences, conditionals⟩ :=
  nofun

theorem meaning_settle (h : ResolvedAs c (.mk line form)) :
    S.meaning (.mk line (settle ⟨false, false, true⟩ line form)) = S.meaning (.mk line form) := by
  have hc : ResolvedAs c (.mk line (choice line form)) :=
    (tidy_choice stable_isResolved h.tidy).shaped
  rw [settle_of_tidy stable_isResolved names_isResolved h.tidy]
  exact (meaning_splitBodies hc).trans (meaning_choice h)

/-! ## Whole trees -/

theorem shaped_normalizeUpTo (h : ResolvedAs c n) (fuel : Nat) :
    ResolvedAs c (normalizeUpTo ⟨false, false, true⟩ fuel n) := by
  refine (tidy_normalizeUpTo stable_isResolved names_isResolved ?_ h.tidy fuel).shaped
  intro form f hf
  cases form <;> exact hf

theorem meaning_normalizeUpTo (h : ResolvedAs c n) (fuel : Nat) :
    S.meaning (normalizeUpTo ⟨false, false, true⟩ fuel n) = S.meaning n :=
  meaning_normalizeUpTo_of stable_isResolved names_isResolved
    (fun h => meaning_settle h.shaped) h.tidy fuel

end Normal

end Debundle
