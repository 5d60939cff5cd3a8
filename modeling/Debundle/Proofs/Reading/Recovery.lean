import Debundle.Proofs.Reading.Stacks

/-!
# What a reader does with a token

A reader prepares a token, gives it to the automaton and, where it is refused, may supply a
semicolon before it. What comes of each is said in terms of the automaton (`insert_eq_next_iff`,
`give_eq_next_iff`, `recover_eq_next_iff`, `prepare_cases`).
-/
namespace Debundle

open Automaton Derivation

namespace Reader

theorem insert_eq_next_iff {r r₁ : Reader} {a : Token} :
    r.insert a = .next r₁ ↔ ∃ s, Feeds (semicolonAt a) r.stack (.shifted s) ∧
      r₁ = { r with stack := s, insertions := ⟨a.terminal, a.line⟩ :: r.insertions } := by
  have hfeed := feeds_feed (semicolonAt a) r.stack
  unfold insert
  dsimp only
  constructor
  · intro h
    split at h <;> cases h
    rename_i s heq
    exact ⟨s, heq ▸ hfeed, rfl⟩
  · rintro ⟨s, hs, rfl⟩
    rw [feed_eq_of_feeds hs]

/-- A semicolon may be supplied before a token that was refused. -/
def MayRecover (r : Reader) (a : Token) : Prop :=
  r.accepts .semicolon = true ∧ (a.terminal, a.start) ∉ r.patched ∧
    (a.terminal = .finish ∨ a.terminal = .rbrace ∨ a.afterLineEnd = true)

theorem mayRecover_of_recover {r r₁ : Reader} {a : Token} (h : r.recover a = .next r₁) :
    r.MayRecover a := by
  unfold recover at h
  dsimp only at h
  by_contra hno
  rw [if_pos (by simpa [MayRecover, and_assoc, or_iff_not_imp_left] using hno)] at h
  cases h

theorem recover_eq {r : Reader} {a : Token} (h : r.MayRecover a) :
    r.recover a =
      match insert { r with patched := (a.terminal, a.start) :: r.patched } a with
      | .next r =>
        if a.terminal = .finish then .next r
        else match feed a r.stack with
          | .shifted stack => .next { r with stack := stack, previous := some a }
          | .refused stack => .stopped (.token a) { r with stack := stack }
          | .accepted _ | .broken => .stopped .broken r
      | step => step := by
  unfold recover
  dsimp only
  exact if_neg (by simpa [MayRecover, and_assoc, or_iff_not_imp_left] using h)

theorem recover_eq_next_iff {r r₁ : Reader} {a : Token} (ha : a.terminal ≠ .finish) :
    r.recover a = .next r₁ ↔ r.MayRecover a ∧
      ∃ s t, Feeds (semicolonAt a) r.stack (.shifted s) ∧ Feeds a s (.shifted t) ∧
        r₁ = { r with
          stack := t, previous := some a, patched := (a.terminal, a.start) :: r.patched,
          insertions := ⟨a.terminal, a.line⟩ :: r.insertions } := by
  constructor
  · intro h
    have hmay := mayRecover_of_recover h
    refine ⟨hmay, ?_⟩
    rw [recover_eq hmay] at h
    split at h
    · rename_i r' hins
      obtain ⟨s, hs, rfl⟩ := insert_eq_next_iff.1 hins
      rw [if_neg ha] at h
      have hfeed := feeds_feed a s
      split at h <;> cases h
      rename_i t heq
      exact ⟨s, t, hs, heq ▸ hfeed, rfl⟩
    · rename_i hno
      exact absurd h (hno _)
  · rintro ⟨hmay, s, t, hs, ht, rfl⟩
    have hins : insert { r with patched := (a.terminal, a.start) :: r.patched } a = .next _ :=
      insert_eq_next_iff.2 ⟨s, hs, rfl⟩
    rw [recover_eq hmay, hins]
    dsimp only
    rw [if_neg ha, feed_eq_of_feeds ht]

theorem give_eq_next_iff {r r₁ : Reader} {a : Token} :
    r.give a = .next r₁ ↔
      (∃ s, Feeds a r.stack (.shifted s) ∧ r₁ = { r with stack := s, previous := some a }) ∨
      ∃ s, Feeds a r.stack (.refused s) ∧ recover { r with stack := s } a = .next r₁ := by
  have hfeed := feeds_feed a r.stack
  unfold give
  constructor
  · intro h
    split at h
    · rename_i s heq
      cases h
      exact .inl ⟨s, heq ▸ hfeed, rfl⟩
    · cases h
    · rename_i s heq
      exact .inr ⟨s, heq ▸ hfeed, h⟩
    · cases h
  · rintro (⟨s, hs, rfl⟩ | ⟨s, hs, h⟩)
    · rw [feed_eq_of_feeds hs]
    · rw [feed_eq_of_feeds hs]
      exact h

end Reader

theorem Derivation.Feeds.top_of_shifted {a : Token} {s t : List Frame}
    (h : Feeds a s (.shifted t)) : ∃ q below, t = ⟨q, .leaf a⟩ :: below ∧
      action? (topState below) a.terminal = some (.shift q) := by
  generalize ho : Feed.shifted t = o at h
  induction h with
  | accept | refuse | stuck => cases ho
  | @shift s q move =>
    cases ho
    exact ⟨q, s, rfl, move⟩
  | reduce move reduced rest ih => exact ih ho

theorem Derivation.Feeds.stacked {a : Token} {s t : List Frame} (h : Feeds a s (.shifted t))
    (hs : Stacked s) : Stacked t :=
  h.sound hs

namespace Reader

theorem cursor_of_give {r r₁ : Reader} {a : Token} (h : r.give a = .next r₁)
    (ha : a.terminal ≠ .finish) : r₁.cursor = r.cursor := by
  obtain ⟨s, -, rfl⟩ | ⟨s, -, h⟩ := give_eq_next_iff.1 h
  · rfl
  · obtain ⟨-, s, t, -, -, rfl⟩ := (recover_eq_next_iff ha).1 h
    rfl

/-- A token under another class. -/
structure Recast (a b : Token) : Prop where
  text : b.text = a.text
  line : b.afterLineEnd = a.afterLineEnd
  finish : a.terminal ≠ .finish → b.terminal ≠ .finish

theorem Recast.refl (a : Token) : Recast a a :=
  ⟨rfl, rfl, id⟩

theorem recast_asKeyword (r : Reader) (a : Token) : Recast a (r.asKeyword a) := by
  unfold asKeyword
  split_ifs
  · split
    · rename_i k hk
      refine ⟨rfl, rfl, fun _ => ?_⟩
      have test : ∀ k ∈ Terminal.keywords, k.1 ≠ .finish := by decide
      exact test k (List.mem_of_find?_eq_some hk)
    · exact .refl a
  · exact .refl a

theorem prepare_cases {r r₁ : Reader} {a a₁ : Token} (h : r.prepare a = .ready a₁ r₁) :
    r₁.cursor = r.cursor ∧ Recast a a₁ := by
  unfold prepare at h
  split at h
  · cases h
    exact ⟨rfl, .refl a⟩
  · split_ifs at h
    · cases h
      exact ⟨rfl, .refl a⟩
    · cases h
      exact ⟨rfl, .refl a⟩
    · split at h <;> cases h
      rename_i hins
      obtain ⟨s, -, rfl⟩ := insert_eq_next_iff.1 hins
      exact ⟨rfl, recast_asKeyword _ a⟩
    · split at h <;> cases h
      rename_i hins
      obtain ⟨s, -, rfl⟩ := insert_eq_next_iff.1 hins
      exact ⟨rfl, .refl a⟩
    · cases h
      exact ⟨rfl, .refl a⟩

end Reader

end Debundle
