import Debundle.Proofs.Reading.Recovery
import Debundle.Proofs.Token.Gaps

/-!
# Steps of a reader

A step of a reader takes a token from the text, or finds that a program is complete at its end
(`step_eq_next_iff`, `finished_cases`). A comment that was left open is never read over
(`run_ne_ok_of_star`).
-/
namespace Debundle

open Automaton Derivation

namespace Reader

theorem insert_ne_done {r r₁ : Reader} {a : Token} {d : Derivation} : r.insert a ≠ .done d r₁ := by
  unfold insert
  dsimp only
  split <;> nofun

theorem recover_ne_done {r r₁ : Reader} {a : Token} {d : Derivation} :
    r.recover a ≠ .done d r₁ := by
  intro h
  unfold recover at h
  dsimp only at h
  split at h
  · cases h
  · split at h
    · split_ifs at h
      split at h <;> cases h
    · exact insert_ne_done h

theorem recover_finish {r r₁ : Reader} {a : Token} (ha : a.terminal = .finish)
    (h : r.recover a = .next r₁) : Feeds (semicolonAt a) r.stack (.shifted r₁.stack) ∧
      r₁.cursor = r.cursor ∧ r₁.last = r.last ∧ (a.terminal, a.start) ∈ r₁.patched := by
  rw [recover_eq (mayRecover_of_recover h)] at h
  split at h
  · rename_i r' hins
    rw [if_pos ha] at h
    cases h
    obtain ⟨s, hs, rfl⟩ := insert_eq_next_iff.1 hins
    exact ⟨hs, rfl, rfl, List.mem_cons_self⟩
  · rename_i hno
    exact absurd h (hno _)

theorem give_eq_done {r r₁ : Reader} {a : Token} {d : Derivation} (h : r.give a = .done d r₁) :
    Feeds a r.stack (.accepted d) := by
  have hfeed := feeds_feed a r.stack
  unfold give at h
  split at h
  · cases h
  · rename_i heq
    cases h
    exact heq ▸ hfeed
  · exact absurd h recover_ne_done
  · cases h

theorem run_cases {fuel : Nat} {r : Reader} {d : Derivation} (h : (run fuel r).1 = .ok d) :
    (∃ n r₁, fuel = n + 1 ∧ r.step = .next r₁ ∧ (run n r₁).1 = .ok d) ∨
      ∃ r₁, r.step = .done d r₁ := by
  cases fuel with
  | zero => cases h
  | succ n =>
    unfold run at h
    split at h
    · rename_i r₁ heq
      exact .inl ⟨n, r₁, rfl, heq, h⟩
    · rename_i tree r₁ heq
      cases h
      exact .inr ⟨r₁, heq⟩
    · cases h

theorem terminal_finishToken (r : Reader) : r.finishToken.terminal = .finish := by
  unfold finishToken
  split <;> rfl

theorem finished_cases {fuel : Nat} {r : Reader} {d : Derivation}
    (hend : ∀ allowed, r.cursor.scan allowed = .finished) (h : (run fuel r).1 = .ok d) :
    Feeds r.finishToken r.stack (.accepted d) ∨
      ∃ t u, Feeds r.finishToken r.stack (.refused t) ∧
        Feeds (semicolonAt r.finishToken) t (.shifted u) ∧ Feeds r.finishToken u (.accepted d) := by
  have hfinish := terminal_finishToken r
  have hstep : ∀ r : Reader, (∀ allowed, r.cursor.scan allowed = .finished) →
      r.step = r.give r.finishToken := by
    intro r hend
    unfold step
    rw [hend]
  have hshift : ∀ {s t : List Frame}, ¬ Feeds r.finishToken s (.shifted t) := by
    intro s t hfeed
    obtain ⟨q, below, -, hq⟩ := hfeed.top_of_shifted
    exact shift_ne_finish (hfinish ▸ hq)
  obtain ⟨n, r₁, -, hs, hrun⟩ | ⟨r₁, hs⟩ := run_cases h
  · rw [hstep r hend] at hs
    obtain ⟨t, hfeed, -⟩ | ⟨t, hfeed, hrec⟩ := give_eq_next_iff.1 hs
    · exact absurd hfeed hshift
    · obtain ⟨hsemi, hcursor, hlast, hmem⟩ := recover_finish hfinish hrec
      refine .inr ⟨t, r₁.stack, hfeed, hsemi, ?_⟩
      have hsame : r₁.finishToken = r.finishToken := by
        rw [finishToken, finishToken, hlast]
      have hstep' := hstep r₁ (by rw [hcursor]; exact hend)
      rw [hsame] at hstep'
      -- the semicolon was supplied once and will not be supplied again
      obtain ⟨-, r₂, -, hs', -⟩ | ⟨r₂, hs'⟩ := run_cases hrun
      · obtain ⟨v, hfeed', -⟩ | ⟨v, -, hrec'⟩ := give_eq_next_iff.1 (hstep' ▸ hs')
        · exact absurd hfeed' hshift
        · exact absurd hmem (mayRecover_of_recover hrec').2.1
      · exact give_eq_done (hstep' ▸ hs')
  · rw [hstep r hend] at hs
    exact .inl (give_eq_done hs)

section

variable {r r₁ : Reader} {gap rest : List Char}

/-- The reader after the token of a class and length was taken from the text. -/
def after (r : Reader) (place : Cursor) (t : Terminal) (n : Nat) : Reader :=
  { r with cursor := place.advance n, last := some (place.token t n) }

theorem step_eq_next_iff (hrest : r.cursor.rest = gap ++ rest) (hf : Gap.Fills gap rest)
    (hn : Gap.extent? rest = none) (hne : rest ≠ []) :
    r.step = .next r₁ ↔
      (∃ t n a r₀, Lexeme.first? r.accepts rest = some (t, n) ∧
        prepare (r.after (r.cursor.advance gap.length) t n)
          ((r.cursor.advance gap.length).token t n) = .ready a r₀ ∧ r₀.give a = .next r₁) ∨
      ∃ t n, Lexeme.first? r.accepts rest = none ∧
        Lexeme.first? (fun _ => true) rest = some (t, n) ∧
        recover (r.after (r.cursor.advance gap.length) t n)
          ((r.cursor.advance gap.length).token t n) = .next r₁ := by
  have hplace : (r.cursor.advance gap.length).rest = rest := Cursor.rest_advance hrest
  unfold step
  rw [Cursor.scan_of_fills hrest hf hn, if_neg hne]
  cases hfirst : Lexeme.first? r.accepts rest with
  | some x =>
    obtain ⟨t, n⟩ := x
    dsimp only
    constructor
    · intro h
      split at h
      · rename_i a r₀ hready
        exact .inl ⟨t, n, a, r₀, rfl, hready, h⟩
      · cases h
    · rintro (⟨t', n', a, r₀, heq, hready, h⟩ | ⟨t', n', heq, -⟩)
      · cases heq
        have hready : prepare { r with
            cursor := (r.cursor.advance gap.length).advance n,
            last := some ((r.cursor.advance gap.length).token t n) }
            ((r.cursor.advance gap.length).token t n) = .ready a r₀ := hready
        rw [hready]
        exact h
      · cases heq
  | none =>
    dsimp only
    rw [hplace]
    cases hall : Lexeme.first? (fun _ => true) rest with
    | some x =>
      obtain ⟨t, n⟩ := x
      dsimp only
      constructor
      · exact fun h => .inr ⟨t, n, rfl, rfl, h⟩
      · rintro (⟨t', n', a, r₀, heq, -⟩ | ⟨t', n', -, heq, h⟩)
        · cases heq
        · cases heq
          exact h
    | none =>
      dsimp only
      constructor
      · intro h
        split at h <;> cases h
      · rintro (⟨t', n', a, r₀, heq, -⟩ | ⟨t', n', -, heq, -⟩)
        · cases heq
        · cases heq

theorem ne_finish_of_first? {allowed : Terminal → Bool} {cs : List Char} {t : Terminal} {n : Nat}
    (h : Lexeme.first? allowed cs = some (t, n)) : t ≠ .finish := by
  obtain ⟨-, f, hr, -⟩ := Lexeme.exists_reader h
  exact hr.ne_finish

theorem step_ne_done {d : Derivation} (hrest : r.cursor.rest = gap ++ rest)
    (hf : Gap.Fills gap rest) (hn : Gap.extent? rest = none) (hne : rest ≠ []) :
    r.step ≠ .done d r₁ := by
  intro h
  unfold step at h
  rw [Cursor.scan_of_fills hrest hf hn, if_neg hne] at h
  cases hfirst : Lexeme.first? r.accepts rest with
  | some x =>
    rw [hfirst] at h
    dsimp only at h
    split at h
    · rename_i a r₀ hready
      exact (prepare_cases hready).2.finish (ne_finish_of_first? hfirst)
        (give_eq_done h).finish_of_accepted
    · cases h
  | none =>
    rw [hfirst] at h
    dsimp only at h
    split at h
    · exact recover_ne_done h
    · split at h <;> cases h

theorem cursor_of_step (hrest : r.cursor.rest = gap ++ rest) (hf : Gap.Fills gap rest)
    (hn : Gap.extent? rest = none) (hne : rest ≠ []) (h : r.step = .next r₁) :
    ∃ t n, (Lexeme.first? r.accepts rest = some (t, n) ∨
        Lexeme.first? r.accepts rest = none ∧ Lexeme.first? (fun _ => true) rest = some (t, n) ∧
          r.accepts .semicolon = true) ∧
      r₁.cursor = (r.cursor.advance gap.length).advance n := by
  obtain ⟨t, n, a, r₀, hfirst, hready, hgive⟩ | ⟨t, n, hnone, hfirst, hrec⟩ :=
    (step_eq_next_iff hrest hf hn hne).1 h
  · obtain ⟨hcursor, hcast⟩ := prepare_cases hready
    have hgiven := cursor_of_give hgive (hcast.finish (ne_finish_of_first? hfirst))
    exact ⟨t, n, .inl hfirst, hgiven.trans hcursor⟩
  · obtain ⟨hmay, s, u, -, -, rfl⟩ := (recover_eq_next_iff (ne_finish_of_first? hfirst)).1 hrec
    exact ⟨t, n, .inr ⟨hnone, hfirst, hmay.1⟩, rfl⟩

theorem scan_of_fills_nil (hf : Gap.Fills r.cursor.rest []) (allowed : Terminal → Bool) :
    r.cursor.scan allowed = .finished := by
  rw [Cursor.scan_of_fills (List.append_nil r.cursor.rest).symm hf rfl, if_pos rfl]

/-! ## Comments that are left open -/

theorem accepts_of_barred {p q : Nat} {t u : Terminal} (h : action? p t = some (.shift q))
    (hu : u ∈ barred t) : Automaton.accepts q u = false := by
  simp [Automaton.accepts, action?_of_barred h hu, ne_acceptState_of_shift h]

theorem run_ne_ok_of_star {fuel : Nat} {d : Derivation} {a : Token} {q : Nat}
    {below : List Frame} {cs : List Char} (hstack : r.stack = ⟨q, .leaf a⟩ :: below)
    (hq : action? (topState below) .slash = some (.shift q)) (hrest : r.cursor.rest = '*' :: cs) :
    (run fuel r).1 ≠ .ok d := by
  intro h
  have hgap : r.cursor.rest = [] ++ '*' :: cs := hrest
  have hn : Gap.extent? ('*' :: cs) = none := Gap.extent?_eq_none (by decide) (by simp)
  have hno : ∀ u ∈ [.star, .starEqual, .semicolon], r.accepts u = false := by
    intro u hu
    rw [Reader.accepts, state, hstack]
    exact accepts_of_barred hq hu
  obtain ⟨n, r₁, -, hstep, -⟩ | ⟨r₁, hstep⟩ := run_cases h
  · obtain ⟨t, n, hfirst | ⟨-, -, hsemi⟩, -⟩ :=
      cursor_of_step hgap (.nil _) hn (List.cons_ne_nil _ _) hstep
    · have hacc := (Lexeme.exists_reader hfirst).1
      obtain rfl | rfl := Lexeme.eq_star_of_first? hfirst
      · rw [hno _ (by simp)] at hacc
        cases hacc
      · rw [hno _ (by simp)] at hacc
        cases hacc
    · rw [hno _ (by simp)] at hsemi
      cases hsemi
  · exact absurd hstep (step_ne_done hgap (.nil _) hn (List.cons_ne_nil _ _))

end

end Reader

end Debundle
