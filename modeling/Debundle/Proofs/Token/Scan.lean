import Debundle.Proofs.Automaton.Table

/-!
# Tokens of a text

When a text begins with a token (`Token.Leads`), every cursor before it takes that token, as long
as no class that reads the same text is allowed beside it (`Cursor.scan_of_leads`).
-/
namespace Debundle

namespace Cursor

theorem advance_append {c : Cursor} {xs ys : List Char} (h : c.rest = xs ++ ys) :
    (c.advance xs.length).rest = ys ∧ (c.advance xs.length).before = xs.reverse ++ c.before ∧
      (c.advance xs.length).start = c.start + xs.length := by
  induction xs generalizing c with
  | nil =>
    obtain ⟨before, rest, start, line, column⟩ := c
    simpa [advance] using h
  | cons x xs ih =>
    obtain ⟨before, rest, start, line, column⟩ := c
    obtain rfl : rest = x :: (xs ++ ys) := h
    rw [List.length_cons, advance]
    split_ifs
    all_goals
      refine (ih rfl).imp id fun ⟨hb, hs⟩ => ⟨by simp [hb], ?_⟩
      simp only [hs]
      omega

theorem rest_advance {c : Cursor} {xs ys : List Char} (h : c.rest = xs ++ ys) :
    (c.advance xs.length).rest = ys :=
  (advance_append h).1

theorem before_advance {c : Cursor} {xs ys : List Char} (h : c.rest = xs ++ ys) :
    (c.advance xs.length).before = xs.reverse ++ c.before :=
  (advance_append h).2.1

end Cursor

namespace Gap

theorem isGapBlank_slash : isGapBlank '/' = false := by decide

theorem head_of_extent?_eq_none {cs : List Char} (h : extent? cs = none) :
    cs.takeWhile isGapBlank = [] := by
  cases cs with
  | nil => rfl
  | cons c cs =>
    rw [List.takeWhile_cons_of_neg]
    intro hc
    have hne : c ≠ '/' := by rintro rfl; rw [isGapBlank_slash] at hc; cases hc
    unfold extent? at h
    split at h
    · simp_all
    · simp_all
    · simp_all
    · simp_all

theorem extent?_blanks {gap cs : List Char} (hg : ∀ c ∈ gap, isGapBlank c = true) (hne : gap ≠ [])
    (h : extent? cs = none) : extent? (gap ++ cs) = some gap.length := by
  obtain _ | ⟨c, gap⟩ := gap
  · exact absurd rfl hne
  · have hc := hg c List.mem_cons_self
    have hslash : c ≠ '/' := by rintro rfl; rw [isGapBlank_slash] at hc; cases hc
    have hrun : (gap ++ cs).takeWhile isGapBlank = gap := by
      rw [List.takeWhile_append_of_pos fun x hx => hg x (List.mem_cons_of_mem c hx),
        head_of_extent?_eq_none h, List.append_nil]
    rw [List.cons_append]
    generalize gap ++ cs = rest at hrun
    unfold extent?
    split
    · simp_all
    · simp_all
    · rename_i c' rest _ _ heq
      cases heq
      rw [if_pos hc, hrun, List.length_cons, Nat.add_comm]
    · simp_all

end Gap

theorem Cursor.skipGaps_blanks {c : Cursor} {gap cs : List Char} (h : c.rest = gap ++ cs)
    (hg : ∀ x ∈ gap, Gap.isGapBlank x = true) (hcs : Gap.extent? cs = none) :
    c.skipGaps c.rest.length = c.advance gap.length := by
  obtain rfl | hne := eq_or_ne gap []
  · have hstop : ∀ fuel, c.skipGaps fuel = c := by
      intro fuel
      rw [List.nil_append] at h
      cases fuel with
      | zero => rfl
      | succ fuel => rw [skipGaps, h, hcs]
    rw [hstop]
    rfl
  · obtain ⟨n, hn⟩ : ∃ n, c.rest.length = n + 1 := by
      have := List.length_pos_iff.2 hne
      exact ⟨c.rest.length - 1, by rw [h, List.length_append]; omega⟩
    rw [hn, skipGaps, h, Gap.extent?_blanks hg hne hcs]
    have hrest : (c.advance gap.length).rest = cs := rest_advance h
    cases n with
    | zero => rfl
    | succ n => simp only [skipGaps, hrest, hcs]

namespace Token

/-- Tokens of one class with one text, wherever they stand. -/
def Alike (a b : Token) : Prop :=
  a.terminal = b.terminal ∧ a.text = b.text

/-- Whether a name is spelled like a keyword. -/
def spellsKeyword (a : Token) : Bool :=
  a.terminal = .name && Terminal.keywords.any fun k => decide (a.text ∈ k.2)

/-- A token is allowed, and no class that comes first and reads its text as well. -/
structure Unrivalled (a : Token) (allowed : Terminal → Bool) : Prop where
  own : allowed a.terminal = true
  slash : Automaton.isSlash a.terminal = true → allowed .regex = false
  word : a.spellsKeyword = true → ∀ k ∈ Terminal.keywords, allowed k.1 = false

/-- A text `rest` leaves the token `a` before it as it is, and no gap begins with that token. -/
structure Leads (a : Token) (rest : List Char) : Prop where
  nonempty : a.text.toList ≠ []
  solid : Gap.extent? (a.text.toList ++ rest) = none
  first : ∀ allowed, a.Unrivalled allowed →
    Lexeme.first? allowed (a.text.toList ++ rest) = some (a.terminal, a.text.toList.length)

end Token

namespace Cursor

theorem scan_of_leads {c : Cursor} {a : Token} {gap rest : List Char}
    {allowed : Terminal → Bool} (hc : c.rest = gap ++ (a.text.toList ++ rest))
    (hg : ∀ x ∈ gap, Gap.isGapBlank x = true) (h : a.Leads rest) (ha : a.Unrivalled allowed) :
    ∃ b c', c.scan allowed = .token b c' ∧ a.Alike b ∧
      b.afterLineEnd = Gap.lineEndBehind none (gap.reverse ++ c.before) ∧ c'.rest = rest ∧
      c'.before = a.text.toList.reverse ++ (gap.reverse ++ c.before) ∧ c.start ≤ c'.start := by
  have hskip := skipGaps_blanks hc hg h.solid
  have hrest : (c.advance gap.length).rest = a.text.toList ++ rest := rest_advance hc
  have hbefore := before_advance hc
  refine ⟨(c.advance gap.length).token a.terminal a.text.toList.length,
    (c.advance gap.length).advance a.text.toList.length, ?_, ⟨rfl, ?_⟩, ?_, rest_advance hrest, ?_,
    ?_⟩
  · have hne : (a.text.toList ++ rest).isEmpty = false := by
      rw [List.isEmpty_eq_false_iff]
      exact fun he => h.nonempty (List.append_eq_nil_iff.1 he).1
    simp only [scan, hskip, hrest, hne, h.first allowed ha]
    simp
  · simp [token, hrest]
  · simp only [token, hbefore]
  · rw [before_advance hrest, hbefore]
  · rw [(advance_append hrest).2.2, (advance_append hc).2.2]
    omega

theorem scan_of_blanks {c : Cursor} {allowed : Terminal → Bool}
    (hg : ∀ x ∈ c.rest, Gap.isGapBlank x = true) : c.scan allowed = .finished := by
  have hrest : c.rest = c.rest ++ [] := by simp
  have hskip := skipGaps_blanks hrest hg rfl
  simp [scan, hskip, rest_advance hrest]

end Cursor

end Debundle
