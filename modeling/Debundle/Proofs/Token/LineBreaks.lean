import Debundle.Proofs.Token.Gaps

/-!
# Line breaks between tokens

Whether a line break stands before a token is read backwards. What that finds is said here without
the reading: a text shows a line break at its end (`Gap.Shows`) if only blanks and comments come after
it, where a comment is whatever stands between the last opening mark and a closing mark.
-/
namespace Debundle

namespace Gap

open Text

/-- A text between the marks of a comment. -/
def blockComment (w : List Char) : List Char :=
  '/' :: '*' :: (w ++ ['*', '/'])

/-- A text without a mark that opens a comment. -/
def Unmarked (w : List Char) : Prop :=
  ¬ ['/', '*'] <:+: w

/-- A row of blanks and comments that is passed over backwards. -/
inductive Passable : List Char → Prop
  | nil : Passable []
  | blank {t : List Char} {c : Char} (init : Passable t) (passed : isPassed c = true) :
      Passable (t ++ [c])
  | comment {t w : List Char} (init : Passable t) (unmarked : Unmarked w) :
      Passable (t ++ blockComment w)

/-- A text that shows a line break to whoever reads it backwards: it ends in one, it ends in a comment
with one, or blanks or a comment come after such a text. -/
inductive Shows : List Char → Prop
  | lineEnd (t : List Char) {c : Char} (lineEnd : isLineEnd c = true) : Shows (t ++ [c])
  | inside (t : List Char) {w : List Char} (unmarked : Unmarked w)
      (lineEnd : w.any isLineEnd = true) : Shows (t ++ blockComment w)
  | blank {t : List Char} {c : Char} (init : Shows t) (passed : isPassed c = true) : Shows (t ++ [c])
  | comment {t w : List Char} (init : Shows t) (unmarked : Unmarked w) : Shows (t ++ blockComment w)

variable {t w before gap : List Char} {c : Char}

theorem concat_ne_comment (h : ¬ ['*', '/'] <:+ t ++ [c]) (t' w : List Char) :
    t ++ [c] ≠ t' ++ blockComment w := by
  intro heq
  refine h ⟨t' ++ '/' :: '*' :: w, ?_⟩
  rw [heq, blockComment]
  simp

theorem shows_concat_iff (h : ¬ ['*', '/'] <:+ t ++ [c]) :
    Shows (t ++ [c]) ↔ isLineEnd c = true ∨ isPassed c = true ∧ Shows t := by
  constructor
  · intro hs
    generalize htext : t ++ [c] = text at hs
    cases hs with
    | lineEnd t' hc =>
      obtain ⟨rfl, ⟨⟩⟩ := List.append_inj' htext rfl
      exact .inl hc
    | inside t' => exact absurd htext (concat_ne_comment h _ _)
    | blank init passed =>
      obtain ⟨rfl, ⟨⟩⟩ := List.append_inj' htext rfl
      exact .inr ⟨passed, init⟩
    | comment => exact absurd htext (concat_ne_comment h _ _)
  · rintro (hc | ⟨hc, hs⟩)
    · exact .lineEnd t hc
    · exact .blank hs hc

/-- The end of a comment that shows a line break, up to its closing mark. -/
def ShowsInside (seen : Bool) (t : List Char) : Prop :=
  ∃ y w, t = y ++ '/' :: '*' :: w ∧ Unmarked w ∧
    (seen = true ∨ w.any isLineEnd = true ∨ Shows y)

theorem shows_close_iff : Shows (t ++ ['*', '/']) ↔ ShowsInside false t := by
  have close : ∀ y w : List Char, y ++ blockComment w = y ++ '/' :: '*' :: w ++ ['*', '/'] := by
    intro y w
    simp [blockComment]
  constructor
  · intro hs
    generalize htext : t ++ ['*', '/'] = text at hs
    have hslash : t ++ ['*'] ++ ['/'] = text := by simpa using htext
    cases hs with
    | lineEnd y hc =>
      obtain ⟨-, ⟨⟩⟩ := List.append_inj' hslash rfl
      cases hc
    | inside y unmarked hc =>
      rw [close] at htext
      exact ⟨y, _, (List.append_inj' htext rfl).1, unmarked, .inr (.inl hc)⟩
    | blank init passed =>
      obtain ⟨-, ⟨⟩⟩ := List.append_inj' hslash rfl
      cases passed
    | comment init unmarked =>
      rw [close] at htext
      exact ⟨_, _, (List.append_inj' htext rfl).1, unmarked, .inr (.inr init)⟩
  · rintro ⟨y, w, rfl, unmarked, h | hc | hs⟩
    · cases h
    · exact close y w ▸ .inside y unmarked hc
    · exact close y w ▸ .comment hs unmarked

/-- The last opening mark is the one before a text without such marks. -/
theorem append_mark_ne {y : List Char} (unmarked : Unmarked w) (hw : w ≠ []) :
    y ++ ['/', '*'] ≠ t ++ '/' :: '*' :: w := by
  intro heq
  obtain ⟨w, d, rfl⟩ := w.eq_nil_or_concat'.resolve_left hw
  have hstar : y ++ ['/'] ++ ['*'] = t ++ '/' :: '*' :: w ++ [d] := by simpa using heq
  obtain ⟨hslash, ⟨⟩⟩ := List.append_inj' hstar rfl
  obtain rfl | ⟨w, e, rfl⟩ := w.eq_nil_or_concat'
  · have hslash : y ++ ['/'] = t ++ ['/'] ++ ['*'] := by simpa using hslash
    exact absurd (List.append_inj' hslash rfl).2 (by decide)
  · rw [← List.cons_append, ← List.cons_append, ← List.append_assoc] at hslash
    obtain ⟨-, ⟨⟩⟩ := List.append_inj' hslash rfl
    exact unmarked ⟨w, [], by simp⟩

theorem showsInside_mark_iff {seen : Bool} :
    ShowsInside seen (t ++ ['/', '*']) ↔ seen = true ∨ Shows t := by
  constructor
  · rintro ⟨y, w, heq, unmarked, h⟩
    obtain rfl : w = [] := by_contra fun hw => append_mark_ne unmarked hw heq
    obtain ⟨rfl, -⟩ := List.append_inj' heq rfl
    simpa using h
  · intro h
    exact ⟨t, [], rfl, by simp [Unmarked], h.imp id .inr⟩

theorem any_concat (w : List Char) (c : Char) :
    (w ++ [c]).any isLineEnd = (w.any isLineEnd || isLineEnd c) := by
  simp

theorem showsInside_concat_iff {seen : Bool} (h : ¬ ['/', '*'] <:+ t ++ [c]) :
    ShowsInside seen (t ++ [c]) ↔ ShowsInside (seen || isLineEnd c) t := by
  have hlast : ∀ {w : List Char} {s : Prop}, seen = true ∨ (w ++ [c]).any isLineEnd = true ∨ s ↔
      (seen || isLineEnd c) = true ∨ w.any isLineEnd = true ∨ s := by
    intro w s
    simp only [any_concat, Bool.or_eq_true, or_assoc, or_left_comm]
  constructor
  · rintro ⟨y, w, heq, unmarked, hs⟩
    obtain rfl | ⟨w, d, rfl⟩ := w.eq_nil_or_concat'
    · exact absurd ⟨y, heq.symm⟩ h
    · rw [← List.cons_append, ← List.cons_append, ← List.append_assoc] at heq
      obtain ⟨rfl, ⟨⟩⟩ := List.append_inj' heq rfl
      exact ⟨y, w, rfl, fun hw => unmarked (hw.trans (List.prefix_append w [c]).isInfix), hlast.1 hs⟩
  · rintro ⟨y, w, rfl, unmarked, hs⟩
    refine ⟨y, w ++ [c], by simp, fun hw => ?_, hlast.2 hs⟩
    obtain hw | hw := List.infix_concat_iff.1 hw
    · exact h (hw.trans ⟨y ++ ['/', '*'], by simp⟩)
    · exact unmarked hw

theorem not_shows_nil : ¬ Shows [] := by
  intro h
  generalize htext : [] = text at h
  cases h <;> simp [blockComment] at htext

/-- What is found backwards is what is shown. -/
theorem lineEndBehind_iff (inside : Option Bool) (cs : List Char) :
    lineEndBehind inside cs = true ↔
      inside.elim (Shows cs.reverse) fun seen => ShowsInside seen cs.reverse := by
  have mark : ∀ {a b c : Char} {rest : List Char}, [b, a] <:+ rest.reverse ++ [c] →
      c = a ∧ ∃ more, rest = b :: more := by
    intro a b c rest h
    rw [← List.reverse_cons, ← List.reverse_prefix, List.reverse_reverse] at h
    obtain ⟨more, heq⟩ := h
    cases heq
    exact ⟨rfl, more, rfl⟩
  fun_induction lineEndBehind inside cs with
  | case1 inside =>
    cases inside with
    | none => simp [not_shows_nil]
    | some seen => simp [ShowsInside]
  | case2 more ih => simpa using ih.trans shows_close_iff.symm
  | case3 c rest hno ih =>
    have hmark : ¬ ['*', '/'] <:+ rest.reverse ++ [c] := fun h => by
      obtain ⟨rfl, more, rfl⟩ := mark h
      exact hno more rfl rfl
    simp only [Option.elim_none] at ih ⊢
    simp only [Bool.or_eq_true, Bool.and_eq_true, ih, List.reverse_cons, shows_concat_iff hmark]
  | case4 seen more ih =>
    simp only [Option.elim_none, Option.elim_some] at ih ⊢
    simp only [Bool.or_eq_true, ih]
    simpa using showsInside_mark_iff.symm
  | case5 seen c rest hno ih =>
    have hmark : ¬ ['/', '*'] <:+ rest.reverse ++ [c] := fun h => by
      obtain ⟨rfl, more, rfl⟩ := mark h
      exact hno more rfl rfl
    simp only [Option.elim_some] at ih ⊢
    simp only [ih, List.reverse_cons, showsInside_concat_iff hmark]

/-! ## The text before a gap -/

/-- Something looks like a comment that begins before a gap and ends inside of it, and it shows a line
break. -/
def Straddles (before gap : List Char) : Prop :=
  ∃ y w b, before ++ gap = y ++ blockComment w ++ b ∧ y.length < before.length ∧ b.length < gap.length ∧
    Unmarked w ∧ Passable b ∧ (w.any isLineEnd = true ∨ Shows y)

theorem Shows.append (h : Shows t) {b : List Char} (hb : Passable b) : Shows (t ++ b) := by
  induction hb with
  | nil => rwa [List.append_nil]
  | blank _ passed ih => exact List.append_assoc .. ▸ ih.blank passed
  | comment _ unmarked ih => exact List.append_assoc .. ▸ ih.comment unmarked

theorem Shows.prepend (h : Shows t) (before : List Char) : Shows (before ++ t) := by
  induction h with
  | lineEnd t hc => exact List.append_assoc .. ▸ .lineEnd _ hc
  | inside t unmarked hc => exact List.append_assoc .. ▸ .inside _ unmarked hc
  | blank _ passed ih => exact List.append_assoc .. ▸ ih.blank passed
  | comment _ unmarked ih => exact List.append_assoc .. ▸ ih.comment unmarked

theorem Passable.append {a b : List Char} (ha : Passable a) (hb : Passable b) : Passable (a ++ b) := by
  induction hb with
  | nil => rwa [List.append_nil]
  | blank _ passed ih => exact List.append_assoc .. ▸ ih.blank passed
  | comment _ unmarked ih => exact List.append_assoc .. ▸ ih.comment unmarked

theorem Straddles.append (h : Straddles before gap) {b : List Char} (hb : Passable b) :
    Straddles before (gap ++ b) := by
  obtain ⟨y, w, b', heq, hy, hb', unmarked, hpass, hs⟩ := h
  refine ⟨y, w, b' ++ b, ?_, hy, ?_, unmarked, hpass.append hb, hs⟩
  · rw [← List.append_assoc, heq, List.append_assoc]
  · simp only [List.length_append]
    omega

/-- A comment that shows a line break, cut at the start of a gap. -/
theorem shows_or_straddles {y x : List Char} (hw : blockComment w = x ++ gap) (unmarked : Unmarked w)
    (h : w.any isLineEnd = true ∨ Shows y) :
    Shows gap ∨ (Passable gap ∧ Shows (y ++ x)) ∨ Straddles (y ++ x) gap := by
  obtain rfl | hx := eq_or_ne x []
  · obtain rfl : blockComment w = gap := hw
    rw [List.append_nil]
    exact h.imp (.inside [] unmarked) fun hs => .inl ⟨.comment .nil unmarked, hs⟩
  obtain rfl | hgap := eq_or_ne gap []
  · rw [List.append_nil] at hw
    subst hw
    exact .inr (.inl ⟨.nil, h.elim (.inside y unmarked) (.comment · unmarked)⟩)
  · refine .inr (.inr ⟨y, w, [], ?_, ?_, List.length_pos_iff.2 hgap, unmarked, .nil, h⟩)
    · rw [hw, List.append_assoc, List.append_nil]
    · have := List.length_pos_iff.2 hx
      rw [List.length_append]
      omega

/-- A line break is shown by a gap, by the text before it if the gap is passed over, or by what looks
like a comment across its start. -/
theorem shows_append_iff : Shows (before ++ gap) ↔
    Shows gap ∨ (Passable gap ∧ Shows before) ∨ Straddles before gap := by
  constructor
  · intro h
    generalize htext : before ++ gap = text at h
    induction h generalizing gap with
    | lineEnd t hc =>
      obtain rfl | ⟨gap, d, rfl⟩ := gap.eq_nil_or_concat'
      · exact .inr (.inl ⟨.nil, by rw [← List.append_nil before, htext]; exact .lineEnd t hc⟩)
      · rw [← List.append_assoc] at htext
        obtain ⟨-, ⟨⟩⟩ := List.append_inj' htext rfl
        exact .inl (.lineEnd gap hc)
    | inside t unmarked hc =>
      obtain ⟨x, rfl, rfl⟩ | ⟨x, rfl, hw⟩ := List.append_eq_append_iff.1 htext
      · exact .inl (.inside x unmarked hc)
      · exact shows_or_straddles hw unmarked (.inl hc)
    | @blank t c hs passed ih =>
      obtain rfl | ⟨gap, d, rfl⟩ := gap.eq_nil_or_concat'
      · exact .inr (.inl ⟨.nil, by rw [← List.append_nil before, htext]; exact .blank hs passed⟩)
      · rw [← List.append_assoc] at htext
        obtain ⟨rfl, ⟨⟩⟩ := List.append_inj' htext rfl
        refine (ih rfl).imp (.blank · passed) (.imp (.imp_left (.blank · passed)) ?_)
        exact fun h => h.append (.blank .nil passed)
    | @comment t w hs unmarked ih =>
      obtain ⟨x, rfl, rfl⟩ | ⟨x, rfl, hw⟩ := List.append_eq_append_iff.1 htext
      · refine (ih rfl).imp (.comment · unmarked) (.imp (.imp_left (.comment · unmarked)) ?_)
        exact fun h => h.append (.comment .nil unmarked)
      · exact shows_or_straddles hw unmarked (.inr hs)
  · rintro (h | ⟨hgap, h⟩ | ⟨y, w, b, heq, -, -, unmarked, hb, hc | hs⟩)
    · exact h.prepend before
    · exact h.append hgap
    · exact heq ▸ (Shows.inside y unmarked hc).append hb
    · exact heq ▸ (hs.comment unmarked).append hb

theorem isLineEnd_of_isPassed (h : isPassed c = true) : isLineEnd c = false := by
  simp only [isPassed, Bool.or_eq_true, beq_iff_eq] at h
  obtain ((((rfl | rfl) | rfl) | rfl) | rfl) | rfl := h <;> rfl

theorem any_blockComment (w : List Char) : (blockComment w).any isLineEnd = w.any isLineEnd := by
  have hmarks : isLineEnd '/' = false ∧ isLineEnd '*' = false := ⟨rfl, rfl⟩
  simp only [blockComment, List.any_cons, List.any_append, List.any_nil, hmarks, Bool.false_or,
    Bool.or_false]

theorem Shows.any_isLineEnd (h : Shows t) : t.any isLineEnd = true := by
  induction h with
  | lineEnd t hc => rw [any_concat, hc, Bool.or_true]
  | inside t _ hw => rw [List.any_append, any_blockComment, hw, Bool.or_true]
  | blank _ _ ih | comment _ _ ih => rw [List.any_append, ih, Bool.true_or]

/-- What is passed over shows the line breaks in its comments. -/
theorem Passable.shows (h : Passable t) (ht : t.any isLineEnd = true) : Shows t := by
  induction h with
  | nil => cases ht
  | blank _ passed ih =>
    rw [any_concat, isLineEnd_of_isPassed passed, Bool.or_false] at ht
    exact (ih ht).blank passed
  | @comment t w _ unmarked ih =>
    rw [List.any_append, any_blockComment, Bool.or_eq_true] at ht
    exact ht.elim (fun ht => (ih ht).comment unmarked) (.inside t unmarked)

/-! ## Plain gaps -/

/-- A row of blanks that are passed over, of line breaks, of block comments without a further opening
mark, and of line comments with their line breaks. -/
inductive Plain : List Char → Prop
  | nil : Plain []
  | blank {t : List Char} {c : Char} (init : Plain t) (passed : isPassed c = true) : Plain (t ++ [c])
  | block {t w : List Char} (init : Plain t) (unmarked : Unmarked w) : Plain (t ++ blockComment w)
  | lineEnd {t : List Char} {c : Char} (init : Plain t) (lineEnd : isLineEnd c = true) :
      Plain (t ++ [c])
  | line {t : List Char} {c : Char} (init : Plain t) (w : List Char) (lineEnd : isLineEnd c = true) :
      Plain (t ++ '/' :: '/' :: w ++ [c])

theorem showsInside_iff {seen : Bool} (unmarked : Unmarked w) :
    ShowsInside seen (t ++ '/' :: '*' :: w) ↔ seen = true ∨ w.any isLineEnd = true ∨ Shows t := by
  induction w using List.reverseRecOn generalizing seen with
  | nil => simpa using showsInside_mark_iff
  | append_singleton w c ih =>
    have hw : Unmarked w := fun h => unmarked (h.trans (List.prefix_append w [c]).isInfix)
    have heq : t ++ '/' :: '*' :: (w ++ [c]) = t ++ '/' :: '*' :: w ++ [c] := by simp
    have hmark : ¬ ['/', '*'] <:+ t ++ '/' :: '*' :: w ++ [c] := by
      rintro ⟨y, hy⟩
      exact append_mark_ne unmarked (by simp) (hy.trans heq.symm)
    rw [heq, showsInside_concat_iff hmark, ih hw, any_concat]
    simp only [Bool.or_eq_true, or_assoc, or_left_comm]

theorem shows_blockComment_iff (unmarked : Unmarked w) :
    Shows (t ++ blockComment w) ↔ w.any isLineEnd = true ∨ Shows t := by
  have heq : t ++ blockComment w = t ++ '/' :: '*' :: w ++ ['*', '/'] := by simp [blockComment]
  rw [heq, shows_close_iff, showsInside_iff unmarked]
  simp

theorem shows_passed_iff (passed : isPassed c = true) : Shows (t ++ [c]) ↔ Shows t := by
  have hmark : ¬ ['*', '/'] <:+ t ++ [c] := by
    rintro ⟨y, hy⟩
    have hy : y ++ ['*'] ++ ['/'] = t ++ [c] := by simpa using hy
    obtain ⟨-, ⟨⟩⟩ := List.append_inj' hy rfl
    cases passed
  simp [shows_concat_iff hmark, isLineEnd_of_isPassed passed, passed]

/-- A plain gap shows its line breaks, or else only what is before it. -/
theorem Plain.cases (h : Plain t) :
    t.any isLineEnd = true ∧ Shows t ∨
      t.any isLineEnd = false ∧ ∀ before, Shows (before ++ t) → Shows before := by
  induction h with
  | nil => exact .inr ⟨rfl, fun before h => by rwa [List.append_nil] at h⟩
  | blank _ passed ih =>
    simp only [any_concat, isLineEnd_of_isPassed passed, Bool.or_false, ← List.append_assoc,
      shows_passed_iff passed]
    exact ih
  | block _ unmarked ih =>
    simp only [List.any_append, any_blockComment, ← List.append_assoc,
      shows_blockComment_iff unmarked, Bool.or_eq_true, Bool.or_eq_false_iff]
    grind
  | lineEnd _ hc | line _ w hc =>
    exact .inl ⟨(Shows.lineEnd _ hc).any_isLineEnd, .lineEnd _ hc⟩

/-- A text shows nothing if it ends in no blank, no line break and no closing mark. -/
theorem not_shows_of_getLast (hmark : ¬ ['*', '/'] <:+ t)
    (hlast : ∀ c ∈ t.getLast?, isPassed c = false ∧ isLineEnd c = false) : ¬ Shows t := by
  obtain rfl | ⟨t, c, rfl⟩ := t.eq_nil_or_concat'
  · exact not_shows_nil
  · obtain ⟨hpassed, hline⟩ := hlast c (by simp)
    simp [shows_concat_iff hmark, hpassed, hline]

theorem newlineBefore?_append (before gap rest : List Char) :
    newlineBefore? (before ++ gap ++ rest) (before ++ gap).length = some (gap.any isLineEnd) ↔
      (Shows (before ++ gap) ↔ gap.any isLineEnd = true) := by
  have hle : ((before ++ gap).length : Int) ≤ (before ++ gap ++ rest).length := by
    simp only [List.length_append]
    omega
  have hshows := lineEndBehind_iff none (before ++ gap).reverse
  rw [List.reverse_reverse] at hshows
  rw [newlineBefore?, if_pos hle, Int.toNat_natCast, List.take_left, Option.some_inj,
    Bool.eq_iff_iff, hshows]
  rfl

/-- Whether a line break stands between two tokens is found out exactly if the gap between them shows
one or has none, and if it has none, neither the text before a gap that is passed over nor what looks
like a comment across its start shows one. In a plain gap, after a token that does not end like a
comment, it always is. -/
theorem newlineBefore?_eq_iff (before gap rest : List Char) :
    (newlineBefore? (before ++ gap ++ rest) (before ++ gap).length = some (gap.any isLineEnd) ↔
      (gap.any isLineEnd = true → Shows gap ∨ Straddles before gap) ∧
      (gap.any isLineEnd = false → ¬ (Passable gap ∧ Shows before) ∧ ¬ Straddles before gap)) ∧
    (Plain gap → ¬ ['*', '/'] <:+ before →
      (∀ c ∈ before.getLast?, isPassed c = false ∧ isLineEnd c = false) →
      newlineBefore? (before ++ gap ++ rest) (before ++ gap).length = some (gap.any isLineEnd)) := by
  rw [newlineBefore?_append, shows_append_iff]
  constructor
  · cases hany : gap.any isLineEnd with
    | true =>
      have hpass : Passable gap ∧ Shows before → Shows gap := fun h => h.1.shows hany
      simp only [iff_true, forall_const, reduceCtorEq, false_imp_iff, and_true]
      tauto
    | false =>
      have hgap : ¬ Shows gap := fun h => by
        rw [h.any_isLineEnd] at hany
        cases hany
      simp only [hgap, false_or, reduceCtorEq, iff_false, false_imp_iff, true_and, forall_const, not_or]
  · intro hplain hmark hlast
    rw [← shows_append_iff]
    obtain ⟨hany, hs⟩ | ⟨hany, hs⟩ := hplain.cases
    · exact iff_of_true (hs.prepend before) hany
    · refine iff_of_false (fun h => not_shows_of_getLast hmark hlast (hs before h)) ?_
      rw [hany]
      nofun

/-- A comment with a line break and a further opening mark after it. -/
def markedComment : List Char :=
  "/*\nb/**/".toList

/-- The line break of a comment is overlooked if an opening mark comes after it. -/
theorem newlineBefore?_markedComment :
    Fills markedComment ['c'] ∧ extent? ['c'] = none ∧ markedComment.any isLineEnd = true ∧
      newlineBefore? ('a' :: markedComment ++ ['c']) 9 = some false := by
  have hgap : Fills (markedComment ++ []) ['c'] := .cons (by decide) (.nil _)
  exact ⟨by rwa [List.append_nil] at hgap, by decide, by decide, by decide⟩

end Gap

end Debundle
