import Debundle.Proofs.Automaton.Items
import Debundle.Proofs.Reading.Faults
import Debundle.Proofs.Reading.Runs

/-!
# How reading fails

A reader never breaks: the automaton is never stuck, and the bound on the number of steps is never
reached (`read_ne_broken`). So a text has a tree, or a problem is reported, or the value of a literal
cannot be taken. The last happens exactly if the first fault of the derivation is that of a literal
or a key (`parse_or_problem_iff`).
-/
namespace Debundle

open Automaton Derivation

namespace Reader

/-- Steps that do not break. -/
def Step.Unbroken : Step → Prop
  | .stopped stop _ => stop ≠ .broken
  | _ => True

variable {r r₁ : Reader} {a : Token}

theorem unbroken_insert (hs : Stacked r.stack) : (r.insert a).Unbroken := by
  have hfeeds := feeds_feed (semicolonAt a) r.stack
  unfold insert
  dsimp only
  split
  · trivial
  · nofun
  · rename_i heq
    rw [heq] at hfeeds
    cases hfeeds.finish_of_accepted
  · rename_i heq
    exact absurd heq (hfeeds.ne_broken hs)

theorem stacked_insert (hs : Stacked r.stack) (h : r.insert a = .next r₁) : Stacked r₁.stack := by
  obtain ⟨s, hfed, rfl⟩ := insert_eq_next_iff.1 h
  exact hfed.stacked hs

theorem unbroken_recover (hs : Stacked r.stack) : (r.recover a).Unbroken := by
  unfold recover
  dsimp only
  split
  · nofun
  · split
    · rename_i r₁ hins
      split
      · trivial
      · rename_i hfinish
        have hs₁ : Stacked r₁.stack := 
          stacked_insert (r := { r with patched := (a.terminal, a.start) :: r.patched }) hs hins
        have hfeeds := feeds_feed a r₁.stack
        split
        · trivial
        · nofun
        · rename_i heq
          rw [heq] at hfeeds
          exact absurd hfeeds.finish_of_accepted hfinish
        · rename_i heq
          exact absurd heq (hfeeds.ne_broken hs₁)
    · exact unbroken_insert hs

theorem unbroken_give (hs : Stacked r.stack) : (r.give a).Unbroken := by
  have hfeeds := feeds_feed a r.stack
  unfold give
  split
  · trivial
  · trivial
  · rename_i s heq
    rw [heq] at hfeeds
    exact unbroken_recover (hfeeds.sound hs)
  · rename_i heq
    exact absurd heq (hfeeds.ne_broken hs)

theorem unbroken_prepare {stop : Stop} (hs : Stacked r.stack) (h : r.prepare a = .stopped stop r₁) :
    stop ≠ .broken := by
  have hins := unbroken_insert (a := a) hs
  unfold prepare at h
  split at h
  · cases h
  · split_ifs at h
    · cases h
      nofun
    · split at h
      · cases h
      · rename_i heq
        exact absurd heq insert_ne_done
      · rename_i heq
        rw [heq] at hins
        cases h
        exact hins
    · split at h
      · cases h
      · rename_i heq
        exact absurd heq insert_ne_done
      · rename_i heq
        rw [heq] at hins
        cases h
        exact hins

theorem unbroken_step (hs : Stacked r.stack) : r.step.Unbroken := by
  unfold step
  split
  · exact unbroken_give hs
  · rename_i token after heq
    split
    · rename_i hready
      exact unbroken_give (sound_prepare (r := { r with cursor := after, last := some token }) hs hready)
    · rename_i hstopped
      exact unbroken_prepare (r := { r with cursor := after, last := some token }) hs hstopped
  · rename_i place heq
    split
    · exact unbroken_recover hs
    · split
      · nofun
      · rename_i hrest
        unfold Cursor.scan at heq
        dsimp only at heq
        split_ifs at heq with hempty
        split at heq
        · cases heq
        · cases heq
          simp [hrest] at hempty

theorem rest_lt_of_step {gap rest : List Char} (hrest : r.cursor.rest = gap ++ rest)
    (hf : Gap.Fills gap rest) (hn : Gap.extent? rest = none) (hne : rest ≠ [])
    (h : r.step = .next r₁) : r₁.cursor.rest.length < r.cursor.rest.length := by
  obtain ⟨t, n, hfirst, hcursor⟩ := cursor_of_step hrest hf hn hne h
  obtain ⟨hpos, hle⟩ : 0 < n ∧ n ≤ rest.length := by
    obtain hfirst | ⟨-, hfirst, -⟩ := hfirst <;>
      obtain ⟨u, c, tail, rfl, rfl, -⟩ := Lexeme.split_of_first? hfirst <;> simp
  have hplace := Cursor.rest_advance hrest
  have hsplit : (r.cursor.advance gap.length).rest = rest.take n ++ rest.drop n := by
    rw [hplace, List.take_append_drop]
  have hafter := Cursor.rest_advance hsplit
  rw [List.length_take_of_le hle] at hafter
  rw [hcursor, hafter, hrest, List.length_drop, List.length_append]
  omega

theorem step_ne_next_again {r₂ : Reader} (hf : Gap.Fills r.cursor.rest []) (h : r.step = .next r₁) :
    r₁.step ≠ .next r₂ := by
  have hgive : ∀ r : Reader, Gap.Fills r.cursor.rest [] → r.step = r.give r.finishToken := by
    intro r hf
    rw [step, scan_of_fills_nil hf]
  have hnext : ∀ r r₁ : Reader, r.give r.finishToken = .next r₁ →
      ∃ u, recover { r with stack := u } r.finishToken = .next r₁ := by
    intro r r₁ h
    obtain ⟨s, hs, -⟩ | ⟨u, -, hu⟩ := give_eq_next_iff.1 h
    · obtain ⟨q, below, -, hq⟩ := hs.top_of_shifted
      rw [terminal_finishToken] at hq
      exact (shift_ne_finish hq).elim
    · exact ⟨u, hu⟩
  rw [hgive r hf] at h
  obtain ⟨u, hu⟩ := hnext r r₁ h
  obtain ⟨-, hcursor, hlast, hpatched⟩ := recover_finish (terminal_finishToken r) hu
  intro h₂
  rw [hgive r₁ (hcursor.symm ▸ hf)] at h₂
  obtain ⟨u', hu'⟩ := hnext r₁ r₂ h₂
  have hsame : r₁.finishToken = r.finishToken := by rw [finishToken, finishToken, hlast]
  exact (mayRecover_of_recover hu').2.1 (hsame ▸ hpatched)

theorem run_ne_broken {fuel : Nat} (hs : Stacked r.stack) (hfuel : r.cursor.rest.length + 2 ≤ fuel) :
    (run fuel r).1 ≠ .error .broken := by
  induction fuel generalizing r with
  | zero => omega
  | succ fuel ih =>
    have hstep := unbroken_step hs
    have hsound := sound_step hs
    rw [run]
    split
    · rename_i r₁ heq
      rw [heq] at hsound
      obtain ⟨gap, rest, hrest, hf, hn⟩ := Gap.exists_fills r.cursor.rest
      obtain rfl | hne := eq_or_ne rest []
      · rw [List.append_nil] at hrest
        obtain ⟨fuel, rfl⟩ : ∃ k, fuel = k + 1 := ⟨fuel - 1, by omega⟩
        have hstep₁ := unbroken_step hsound
        rw [run]
        split
        · rename_i r₂ heq₂
          exact absurd heq₂ (step_ne_next_again (hrest ▸ hf) heq)
        · simp
        · rename_i heq₂
          rw [heq₂] at hstep₁
          exact fun h => hstep₁ (Except.error.inj h)
      · exact ih hsound (by
          have := rest_lt_of_step hrest hf hn hne heq
          omega)
    · simp
    · rename_i heq
      rw [heq] at hstep
      exact fun h => hstep (Except.error.inj h)

theorem read_ne_broken (cs : List Char) : (read cs).1 ≠ .error .broken :=
  run_ne_broken .nil (Nat.le_succ (cs.length + 2))

end Reader

theorem result_of_error {file text : String} {stop : Reader.Stop}
    (h : (Reader.read (maskHashbang text.toList)).1 = .error stop) :
    ∃ problem, (parse file text).result = .error (.problem problem) := by
  unfold parse
  dsimp only
  rw [h]
  cases stop <;> exact ⟨_, rfl⟩

theorem result_of_ok (file : String) {text : String} {d : Derivation}
    (h : (Reader.read (maskHashbang text.toList)).1 = .ok d) :
    match d.faults.head? with
    | none => ∃ t, (parse file text).result = .ok t
    | some (.literal place fault) => (parse file text).result = .error (.literal place fault)
    | some _ => ∃ problem, (parse file text).result = .error (.problem problem) := by
  have htree := tree_cases (Reader.derives_of_read h)
  cases hf : d.faults.head? with
  | none =>
    rw [hf] at htree
    obtain ⟨t, ht⟩ : ∃ t, Build.tree d = .ok t := htree
    exact ⟨t, by simp [parse, h, ht]⟩
  | some fault =>
    rw [hf] at htree
    have htree : Build.tree d = .error fault := htree
    have hresult : (parse file text).result =
        .error (ReadFailure.ofFault file (String.ofList (maskHashbang text.toList)) fault) := by
      simp [parse, h, htree]
    rw [hresult]
    cases fault with
    | literal place fault => rfl
    | forHeader | strayWord | misfit => exact ⟨_, rfl⟩

/-- The reader is never broken. A text has a tree, or a problem is reported, exactly if it has no
derivation whose first fault is that of a literal or a key. -/
theorem parse_or_problem_iff (file text : String) :
    (Reader.read (maskHashbang text.toList)).1 ≠ .error .broken ∧
      (((∃ t, (parse file text).result = .ok t) ∨
          ∃ problem, (parse file text).result = .error (.problem problem)) ↔
        ∀ d, (Reader.read (maskHashbang text.toList)).1 = .ok d →
          ∀ place fault, d.faults.head? ≠ some (.literal place fault)) := by
  refine ⟨Reader.read_ne_broken _, ?_, ?_⟩
  · intro h d hd place fault hf
    have hresult := result_of_ok file hd
    rw [hf] at hresult
    have hresult : (parse file text).result = .error (.literal place fault) := hresult
    rw [hresult] at h
    obtain ⟨t, ht⟩ | ⟨problem, hp⟩ := h
    · cases ht
    · cases hp
  · intro h
    cases hread : (Reader.read (maskHashbang text.toList)).1 with
    | error stop => exact .inr (result_of_error hread)
    | ok d =>
      have hresult := result_of_ok file hread
      cases hf : d.faults.head? with
      | none =>
        rw [hf] at hresult
        exact .inl hresult
      | some fault =>
        rw [hf] at hresult
        cases fault with
        | literal place fault => exact absurd hf (h d hread place fault)
        | forHeader | strayWord | misfit => exact .inr hresult

/-- Half of a surrogate pair is no character. -/
theorem parse_loneSurrogate :
    (parse unnamedFile "\"\\ud800\"").result matches .error (.literal .string .loneSurrogate) := by
  decide +kernel

end Debundle
