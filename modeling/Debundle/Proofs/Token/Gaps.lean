import Debundle.Proofs.Token.Stable

/-!
# Gaps and line ends

What lies between two tokens is a row of blanks and comments (`Gap.Fills`), which a cursor skips
(`Cursor.scan_of_fills`).
-/
namespace Debundle

namespace Gap

open Text

variable {cs gap rest : List Char} {n : Nat}

/-! ## Pieces of a gap -/

theorem blockEnd_cons {c : Char} (hno : ∀ v, c :: cs ≠ '*' :: '/' :: v) :
    blockEnd (c :: cs) = (blockEnd cs).map (· + 1) := by
  rw [blockEnd]
  rintro rest rfl rfl
  exact hno _ rfl

/-- A block comment ends with the first closing mark. -/
theorem blockEnd_eq_some_iff : blockEnd cs = some n ↔
    ∃ body rest, cs = body ++ '*' :: '/' :: rest ∧ n = body.length + 2 ∧
      ∀ u v, body ++ ['*'] ≠ u ++ '*' :: '/' :: v := by
  induction cs generalizing n with
  | nil => simp [blockEnd]
  | cons c cs ih =>
    by_cases hmark : ∃ v, c :: cs = '*' :: '/' :: v
    · obtain ⟨v, hv⟩ := hmark
      rw [hv, blockEnd]
      constructor
      · rintro ⟨⟩
        refine ⟨[], v, rfl, rfl, fun u w h => ?_⟩
        have := congrArg List.length h
        simp only [List.nil_append, List.length_append, List.length_cons, List.length_nil] at this
        omega
      · rintro ⟨_ | ⟨b, body⟩, rest, heq, rfl, hno⟩
        · rfl
        · rw [List.cons_append, List.cons_eq_cons] at heq
          obtain ⟨rfl, heq⟩ := heq
          obtain _ | ⟨b, body⟩ := body
          · cases heq
          · rw [List.cons_append, List.cons_eq_cons] at heq
            obtain ⟨rfl, -⟩ := heq
            exact absurd rfl (hno [] (body ++ ['*']))
    · rw [blockEnd_cons fun v h => hmark ⟨v, h⟩, Option.map_eq_some_iff]
      constructor
      · rintro ⟨m, hm, rfl⟩
        obtain ⟨body, rest, rfl, rfl, hno⟩ := ih.1 hm
        refine ⟨c :: body, rest, rfl, rfl, fun u v h => ?_⟩
        obtain _ | ⟨d, u⟩ := u
        · obtain _ | ⟨d, body⟩ := body
          · cases h
          · cases h
            exact hmark ⟨_, rfl⟩
        · rw [List.cons_append, List.cons_append, List.cons_eq_cons] at h
          exact hno u v h.2
      · rintro ⟨_ | ⟨b, body⟩, rest, heq, rfl, hno⟩
        · exact absurd ⟨rest, heq⟩ hmark
        · rw [List.cons_append, List.cons_eq_cons] at heq
          obtain ⟨rfl, rfl⟩ := heq
          refine ⟨body.length + 2, ih.2 ⟨body, rest, rfl, rfl, fun u v h => ?_⟩, rfl⟩
          exact hno (c :: u) v (by rw [List.cons_append, h, List.cons_append])

theorem extent?_block (rest : List Char) :
    extent? ('/' :: '*' :: rest) = (blockEnd rest).map (· + 2) := rfl

theorem extent?_line (rest : List Char) :
    extent? ('/' :: '/' :: rest) = some (2 + (rest.takeWhile (!isLineEnd ·)).length) := rfl

theorem extent?_blank {c : Char} (hc : isGapBlank c = true) (rest : List Char) :
    extent? (c :: rest) = some (1 + (rest.takeWhile isGapBlank).length) := by
  have hslash : c ≠ '/' := by rintro rfl; rw [isGapBlank_slash] at hc; cases hc
  unfold extent?
  split
  · simp_all
  · simp_all
  · rename_i heq
    cases heq
    rw [if_pos hc]
  · simp_all

theorem extent?_cases (h : extent? cs = some n) :
    (∃ body rest, cs = '/' :: '*' :: (body ++ '*' :: '/' :: rest) ∧ n = body.length + 4 ∧
      ∀ u v, body ++ ['*'] ≠ u ++ '*' :: '/' :: v) ∨
    (∃ rest, cs = '/' :: '/' :: rest ∧ n = 2 + (rest.takeWhile (!isLineEnd ·)).length) ∨
    ∃ c rest, cs = c :: rest ∧ isGapBlank c = true ∧
      n = 1 + (rest.takeWhile isGapBlank).length := by
  unfold extent? at h
  split at h
  · obtain ⟨m, hm, rfl⟩ := Option.map_eq_some_iff.1 h
    obtain ⟨body, rest, rfl, rfl, hno⟩ := blockEnd_eq_some_iff.1 hm
    exact .inl ⟨body, rest, rfl, rfl, hno⟩
  · cases h
    exact .inr (.inl ⟨_, rfl, rfl⟩)
  · rename_i c rest _ _
    split_ifs at h with hc
    cases h
    exact .inr (.inr ⟨c, rest, rfl, hc, rfl⟩)
  · cases h

theorem extent?_pos (h : extent? cs = some n) : 0 < n ∧ n ≤ cs.length := by
  obtain ⟨body, rest, rfl, rfl, -⟩ | ⟨rest, rfl, rfl⟩ | ⟨c, rest, rfl, -, rfl⟩ := extent?_cases h
  · simp
  · have := (List.takeWhile_sublist (p := (!isLineEnd ·)) (l := rest)).length_le
    simp only [List.length_cons]
    omega
  · have := (List.takeWhile_sublist (p := isGapBlank) (l := rest)).length_le
    simp only [List.length_cons]
    omega

/-- A text is filled with blanks and comments up to `rest`. -/
inductive Fills : List Char → List Char → Prop
  | nil (rest : List Char) : Fills [] rest
  | cons {piece gap rest : List Char} (extent : extent? (piece ++ (gap ++ rest)) = some piece.length)
      (tail : Fills gap rest) : Fills (piece ++ gap) rest

theorem exists_fills (cs : List Char) :
    ∃ gap rest, cs = gap ++ rest ∧ Fills gap rest ∧ extent? rest = none := by
  induction hlen : cs.length using Nat.strongRecOn generalizing cs with
  | _ k ih =>
    cases h : extent? cs with
    | none => exact ⟨[], cs, rfl, .nil cs, h⟩
    | some n =>
      have hpos := extent?_pos h
      obtain ⟨gap, rest, hdrop, hfills, hnone⟩ :=
        ih (cs.drop n).length (by rw [List.length_drop]; omega) (cs.drop n) rfl
      have hsplit : cs.take n ++ (gap ++ rest) = cs := by rw [← hdrop, List.take_append_drop]
      refine ⟨cs.take n ++ gap, rest, by rw [List.append_assoc, hsplit], .cons ?_ hfills, hnone⟩
      rw [hsplit, h, List.length_take, Nat.min_eq_left hpos.2]

/-! ## Line ends -/

theorem lineEndBehind_mark (cs : List Char) :
    lineEndBehind none ('/' :: '*' :: cs) = lineEndBehind (some false) cs := by
  rw [lineEndBehind]

theorem lineEndBehind_cons {c : Char} (h : ∀ more, c :: cs ≠ '/' :: '*' :: more) :
    lineEndBehind none (c :: cs) = (isLineEnd c || (isPassed c && lineEndBehind none cs)) := by
  rw [lineEndBehind]
  rintro more rfl rfl
  exact h more rfl

theorem lineEndBehind_inside_mark (seen : Bool) (cs : List Char) :
    lineEndBehind (some seen) ('*' :: '/' :: cs) = (seen || lineEndBehind none cs) := by
  rw [lineEndBehind]

theorem lineEndBehind_inside_cons {c : Char} (seen : Bool)
    (h : ∀ more, c :: cs ≠ '*' :: '/' :: more) :
    lineEndBehind (some seen) (c :: cs) = lineEndBehind (some (seen || isLineEnd c)) cs := by
  rw [lineEndBehind]
  rintro more rfl rfl
  exact h more rfl

theorem isGapBlank_of_isLineEnd {c : Char} (h : isLineEnd c = true) : isGapBlank c = true := by
  simp only [isLineEnd, Bool.or_eq_true, beq_iff_eq] at h
  obtain ((rfl | rfl) | rfl) | rfl := h <;> decide

theorem isGapBlank_of_isPassed {c : Char} (h : isPassed c = true) : isGapBlank c = true := by
  simp only [isPassed, Bool.or_eq_true, beq_iff_eq] at h
  obtain ((((rfl | rfl) | rfl) | rfl) | rfl) | rfl := h <;> decide

/-- The pieces of a gap: a comment up to its closing mark, one up to the end of its line, and
blanks up to something else. -/
theorem piece_cases {piece tail : List Char} (h : extent? (piece ++ tail) = some piece.length) :
    (∃ body, piece = '/' :: '*' :: (body ++ ['*', '/']) ∧
      ∀ u v, body ++ ['*'] ≠ u ++ '*' :: '/' :: v) ∨
    (∃ body, piece = '/' :: '/' :: body ∧ (∀ c ∈ body, isLineEnd c = false) ∧
      ∀ c ∈ tail.head?, isLineEnd c = true) ∨
    ∃ c body, piece = c :: body ∧ (∀ d ∈ c :: body, isGapBlank d = true) ∧
      ∀ d ∈ tail.head?, isGapBlank d = false := by
  have stops : ∀ {p : Char → Bool} {after : List Char}, tail = after.dropWhile p →
      ∀ c ∈ tail.head?, p c = false := by
    intro p after hrest c hc
    have := List.head?_dropWhile_not p after
    rw [← hrest, Option.mem_def.1 hc] at this
    simpa using this
  obtain ⟨body, after, heq, hlen, hno⟩ | ⟨after, heq, hlen⟩ | ⟨c, after, heq, hc, hlen⟩ :=
    extent?_cases h
  · have hsplit : piece ++ tail = '/' :: '*' :: (body ++ ['*', '/']) ++ after := by simp [heq]
    exact .inl ⟨body, (List.append_inj hsplit (by simp [hlen])).1, hno⟩
  · have hsplit : piece ++ tail =
        '/' :: '/' :: after.takeWhile (!isLineEnd ·) ++ after.dropWhile (!isLineEnd ·) := by
      rw [heq, List.cons_append, List.cons_append, List.takeWhile_append_dropWhile]
    obtain ⟨hpiece, hrest⟩ := List.append_inj hsplit (by simp [hlen]; omega)
    refine .inr (.inl ⟨_, hpiece, fun c hc => ?_, fun c hc => ?_⟩)
    · simpa using List.mem_takeWhile_imp hc
    · simpa using stops hrest c hc
  · have hsplit : piece ++ tail =
        c :: after.takeWhile isGapBlank ++ after.dropWhile isGapBlank := by
      rw [heq, List.cons_append, List.takeWhile_append_dropWhile]
    obtain ⟨hpiece, hrest⟩ := List.append_inj hsplit (by simp [hlen]; omega)
    refine .inr (.inr ⟨c, _, hpiece, fun d hd => ?_, stops hrest⟩)
    obtain rfl | hd := List.mem_cons.1 hd
    · exact hc
    · exact List.mem_takeWhile_imp hd

/-- The first character after a gap is no line end. -/
theorem not_isLineEnd_head (hn : extent? rest = none) (hne : rest ≠ []) :
    ¬ ∀ c ∈ rest.head?, isLineEnd c = true := by
  obtain ⟨c, rest, rfl⟩ := List.exists_cons_of_ne_nil hne
  intro h
  rw [extent?_blank (isGapBlank_of_isLineEnd (h c rfl))] at hn
  cases hn

theorem getLast_of_fills (hf : Fills gap rest) (hne : rest ≠ []) (hn : extent? rest = none) :
    ∀ c ∈ gap.getLast?, c = '/' ∨ isGapBlank c = true := by
  induction hf with
  | nil => nofun
  | @cons piece gap rest extent tail ih =>
    intro c hc
    rw [List.getLast?_append] at hc
    obtain hgap | ⟨hgap, hpiece⟩ := Option.or_eq_some_iff.1 hc
    · exact ih hne hn c hgap
    · obtain rfl : gap = [] := List.getLast?_eq_none_iff.1 hgap
      obtain ⟨body, rfl, -⟩ | ⟨body, -, -, hhead⟩ | ⟨b, body, rfl, hblank, -⟩ := piece_cases extent
      · have : some '/' = some c := by simpa [List.getLast?_append, List.getLast?_cons] using hpiece
        exact .inl (Option.some.inj this).symm
      · exact absurd hhead (not_isLineEnd_head hn hne)
      · exact .inr (hblank c (List.mem_of_getLast? hpiece))

end Gap

namespace Cursor

theorem advance_add (c : Cursor) (m n : Nat) : c.advance (m + n) = (c.advance m).advance n := by
  induction m generalizing c with
  | zero =>
    rw [Nat.zero_add]
    rfl
  | succ m ih =>
    obtain ⟨before, _ | ⟨d, rest⟩, start, line, column⟩ := c
    · have : ∀ k, advance k ⟨before, [], start, line, column⟩ =
          ⟨before, [], start, line, column⟩ := by
        intro k
        cases k <;> rfl
      rw [this, this, this]
    · rw [Nat.succ_add, advance, advance]
      split_ifs <;> rw [ih]

variable {allowed : Terminal → Bool} {gap rest : List Char}

theorem skipGaps_of_fills {c : Cursor} (h : c.rest = gap ++ rest) (hf : Gap.Fills gap rest)
    (hn : Gap.extent? rest = none) {fuel : Nat} (hfuel : gap.length ≤ fuel) :
    c.skipGaps fuel = c.advance gap.length := by
  induction hf generalizing c fuel with
  | nil rest =>
    cases fuel with
    | zero => rfl
    | succ fuel =>
      rw [List.nil_append] at h
      rw [skipGaps, h, hn]
      rfl
  | @cons piece gap rest extent tail ih =>
    have hpos := Gap.extent?_pos extent
    rw [List.length_append] at hfuel ⊢
    obtain ⟨fuel, rfl⟩ : ∃ k, fuel = k + 1 := ⟨fuel - 1, by omega⟩
    rw [List.append_assoc] at h
    rw [skipGaps, h, extent, advance_add]
    exact ih (rest_advance h) hn (by omega)

theorem scan_of_fills {c : Cursor} (h : c.rest = gap ++ rest) (hf : Gap.Fills gap rest)
    (hn : Gap.extent? rest = none) :
    c.scan allowed =
      if rest = [] then .finished
      else match Lexeme.first? allowed rest with
        | some (t, n) =>
          .token ((c.advance gap.length).token t n) ((c.advance gap.length).advance n)
        | none => .stuck (c.advance gap.length) := by
  have hlength : gap.length ≤ c.rest.length := by
    rw [h, List.length_append]
    omega
  have hskip := skipGaps_of_fills h hf hn hlength
  have hrest : (c.advance gap.length).rest = rest := rest_advance h
  by_cases hempty : rest = []
  · simp [scan, hskip, hrest, hempty]
  · cases hfirst : Lexeme.first? allowed rest with
    | none => simp [scan, hskip, hrest, hempty, hfirst]
    | some found => simp [scan, hskip, hrest, hempty, hfirst]

end Cursor

end Debundle
