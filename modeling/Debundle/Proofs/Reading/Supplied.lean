import Debundle.Proofs.Automaton.Semicolons
import Debundle.Proofs.Reading.Stacks

/-!
# Semicolons on the stack

A semicolon is supplied after a token was refused, on the stack that the token left. It does the
same on the stack before that token (`Feeds.supply`), so it might as well have stood in the text.
After a statement no second semicolon is supplied before the same token
(`Feeds.refused_again`).
-/
namespace Debundle.Derivation

open Automaton

/-! ## Stacks of the same states -/

/-- Frames with the same state, and derivations that differ only in the places of their tokens. -/
structure Frame.Alike (f g : Frame) : Prop where
  state : f.state = g.state
  tree : f.tree.Alike g.tree

/-- Outcomes that differ only in the places of tokens. -/
inductive Feed.Alike : Feed → Feed → Prop
  | shifted {s s' : List Frame} (frames : List.Forall₂ Frame.Alike s s') :
      Alike (.shifted s) (.shifted s')
  | accepted {d d' : Derivation} (trees : d.Alike d') : Alike (.accepted d) (.accepted d')
  | refused {s s' : List Frame} (frames : List.Forall₂ Frame.Alike s s') :
      Alike (.refused s) (.refused s')

theorem topState_alike {s s' : List Frame} (h : List.Forall₂ Frame.Alike s s') :
    topState s' = topState s := by
  cases h with
  | nil => rfl
  | cons frame rest => exact frame.state.symm

theorem reduce?_alike {i : Nat} {s s' t : List Frame} (h : List.Forall₂ Frame.Alike s s')
    (hred : reduce? i s = some t) :
    ∃ t', reduce? i s' = some t' ∧ List.Forall₂ Frame.Alike t t' := by
  obtain ⟨r, parts, below, q, hr, rfl, hlen, hq, rfl⟩ := reduce?_eq_some_iff.1 hred
  obtain ⟨parts', below', hparts, hbelow, rfl⟩ :
      ∃ parts' below', List.Forall₂ Frame.Alike parts parts' ∧
        List.Forall₂ Frame.Alike below below' ∧ s' = parts' ++ below' := by
    have htake := List.forall₂_take parts.length h
    have hdrop := List.forall₂_drop parts.length h
    rw [List.take_left] at htake
    rw [List.drop_left] at hdrop
    exact ⟨_, _, htake, hdrop, (List.take_append_drop parts.length s').symm⟩
  refine ⟨⟨q, .node i (parts'.reverse.map Frame.tree)⟩ :: below', reduce?_eq_some_iff.2
    ⟨r, parts', below', q, hr, rfl, hparts.length_eq.symm.trans hlen, ?_, rfl⟩,
    .cons ⟨rfl, .node ?_⟩ hbelow⟩
  · rw [topState_alike hbelow, hq]
  · rw [List.forall₂_map_left_iff, List.forall₂_map_right_iff]
    exact (List.rel_reverse hparts).imp fun _ _ => Frame.Alike.tree

theorem Feeds.alike {a b : Token} {s s' : List Frame} {o : Feed} (hf : Feeds a s o)
    (ho : o ≠ .broken) (h : List.Forall₂ Frame.Alike s s') (hab : a.Alike b) :
    ∃ o', Feeds b s' o' ∧ o.Alike o' := by
  induction hf generalizing s' with
  | accept top finish =>
    cases h with
    | cons hframe hrest =>
      exact ⟨_, .accept (hframe.state ▸ top) (hab.1 ▸ finish), .accepted hframe.tree⟩
  | refuse open_ none =>
    refine ⟨_, .refuse ?_ ?_, .refused h⟩
    · rwa [topState_alike h, ← hab.1]
    · rwa [topState_alike h, ← hab.1]
  | @shift s q move =>
    refine ⟨_, .shift (q := q) ?_, .shifted (.cons ⟨rfl, .leaf hab⟩ h)⟩
    rwa [topState_alike h, ← hab.1]
  | reduce move reduced rest ih =>
    obtain ⟨t', hred, ht⟩ := reduce?_alike h reduced
    obtain ⟨o', ho', halike⟩ := ih ho ht
    exact ⟨o', .reduce (by rwa [topState_alike h, ← hab.1]) hred ho', halike⟩
  | stuck move misfit => exact absurd rfl ho

theorem Feeds.shifted_alike {a b : Token} {s s' t : List Frame} (hf : Feeds a s (.shifted t))
    (h : List.Forall₂ Frame.Alike s s') (hab : a.Alike b) :
    ∃ t', Feeds b s' (.shifted t') ∧ List.Forall₂ Frame.Alike t t' := by
  obtain ⟨_, hfeed, ⟨halike⟩⟩ := hf.alike nofun h hab
  exact ⟨_, hfeed, halike⟩

/-! ## Stacks after a statement -/

section

variable {a b : Token} {s s' t u v : List Frame} {o : Feed} {i : Nat}

/-- On top of the stack is something that ends where a statement ends. -/
def Rests (s : List Frame) : Prop :=
  ∃ q d below n, s = ⟨q, d⟩ :: below ∧ goto? (topState below) n = some q ∧ endsStatement n = true

theorem rests_of_reduce (hi : headIs endsStatement i = true) (h : reduce? i s = some s') :
    Rests s' := by
  obtain ⟨r, parts, below, q, hr, rfl, -, hq, rfl⟩ := reduce?_eq_some_iff.1 h
  exact ⟨q, _, below, r.head, rfl, hq, head_of_headIs hi hr⟩

theorem Rests.reduce {x : Terminal} (h : Rests s)
    (move : action? (topState s) x = some (.reduce i)) (reduced : reduce? i s = some s') :
    Rests s' := by
  obtain ⟨q, d, below, n, rfl, hq, hn⟩ := h
  exact rests_of_reduce (endsStatement_of_reduce hq hn move) reduced

theorem Rests.refused (h : Rests s) (hf : Feeds a s (.refused t)) :
    Rests t ∧ action? (topState t) a.terminal = none := by
  generalize ho : Feed.refused t = o at hf
  induction hf with
  | accept | shift | stuck => cases ho
  | refuse open_ none =>
    cases ho
    exact ⟨h, none⟩
  | reduce move reduced rest ih => exact ih (h.reduce move reduced) ho

theorem Rests.topState_of_shifted (h : Rests s) (hb : b.terminal = .semicolon)
    (hf : Feeds b s (.shifted u)) : topState u = 26 := by
  generalize ho : Feed.shifted u = o at hf
  induction hf with
  | accept | refuse | stuck => cases ho
  | shift move =>
    cases ho
    obtain ⟨q, d, below, n, rfl, hq, hn⟩ := h
    exact eq_of_shift_semicolon hq hn (hb ▸ move)
  | reduce move reduced rest ih => exact ih (h.reduce move reduced) ho

/-- A token that was refused after a statement is refused after one more semicolon. -/
theorem Rests.refused_again (h : Rests s) (hs : Stacked s)
    (hn : action? (topState s) a.terminal = none) (hb : b.terminal = .semicolon)
    (hsemi : Feeds b s (.shifted u)) (hf : Feeds a u o) : ∃ v, o = .refused v := by
  by_cases h26 : action? 26 a.terminal = none
  · have htop := h.topState_of_shifted hb hsemi
    refine ⟨u, hf.refused_of_none ?_ ?_⟩
    · rw [htop]
      decide
    · rwa [htop]
  · generalize ho : Feed.shifted u = o' at hsemi
    induction hsemi with
    | accept | refuse | stuck => cases ho
    | shift move =>
      cases ho
      obtain ⟨q, d, below, n, rfl, hq, hends⟩ := h
      rw [hb] at move
      obtain hnone | ⟨hshift, hlists⟩ | ⟨i, hred, -⟩ := refused_cases hq hends hn h26
      · cases move.symm.trans hnone
      · cases move.symm.trans hshift
        exact hf.refused_after_empty hs hlists hn
      · cases move.symm.trans hred
    | @reduce s s₁ i o' move reduced rest ih =>
      have hrests := h.reduce move reduced
      obtain ⟨q, d, below, n, rfl, hq, hends⟩ := h
      have hstacked := hs.reduce move reduced
      rw [hb] at move
      obtain hnone | ⟨hshift, -⟩ | ⟨j, hred, helse, hhead⟩ := refused_cases hq hends hn h26
      · cases move.symm.trans hnone
      · cases move.symm.trans hshift
      · -- only `else` is refused before the list of statements is complete, and in the list as well
        cases move.symm.trans hred
        refine ih hrests hstacked ?_ ho
        obtain ⟨r, parts, under, p, hr, -, -, hp, rfl⟩ := reduce?_eq_some_iff.1 reduced
        have hstatements := of_decide_eq_true (head_of_headIs hhead hr)
        rw [helse]
        exact action?_kwElse_of_statements (hstatements ▸ hp)

/-! ## Semicolons before reductions -/

theorem reduce_of_accepts {x y : Terminal} (h : Stacked s)
    (move : action? (topState s) x = some (.reduce i)) (reduced : reduce? i s = some s')
    (hy : accepts (topState s') y = true) (hext : extension? i ≠ some y) :
    action? (topState s) y = some (.reduce i) := by
  obtain ⟨r, parts, below, q, hr, rfl, hlen, hq, rfl⟩ := reduce?_eq_some_iff.1 reduced
  obtain ⟨r', hr', hpast⟩ := past_of_reduce move
  obtain rfl : r = r' := Option.some.inj (hr.symm.trans hr')
  obtain ⟨parts', below', heq, hlen', hwalk⟩ := h.walk? hpast
  obtain ⟨rfl, rfl⟩ := List.append_inj heq (by rw [hlen, hlen', List.length_reverse])
  obtain ⟨k, hk, hact⟩ := reduce_of_goto hq hr
  rw [List.reverse_reverse, hk, Option.some.injEq] at hwalk
  exact hwalk ▸ hact y hy hext

theorem Feeds.exists_action (h : Feeds a s (.shifted t)) :
    ∃ move, action? (topState s) a.terminal = some move := by
  cases h with
  | shift move => exact ⟨_, move⟩
  | reduce move reduced rest => exact ⟨_, move⟩

theorem Feeds.accepts (h : Feeds a s (.shifted t)) :
    Automaton.accepts (topState s) a.terminal = true := by
  obtain ⟨move, hmove⟩ := h.exists_action
  exact accepts_of_action? hmove

theorem Feeds.exists_reduce (h : Feeds a s (.refused t))
    (ha : Automaton.accepts (topState s) a.terminal = true) :
    ∃ i, action? (topState s) a.terminal = some (.reduce i) := by
  cases h with
  | refuse open_ none =>
    simp only [Automaton.accepts, none, Option.isSome_none, Bool.false_or, Bool.and_eq_true,
      beq_iff_eq] at ha
    exact absurd ha open_
  | reduce move reduced rest => exact ⟨_, move⟩

/-- A semicolon does to the stack that a refused token left what it does to the stack before. Only
after `do` it may complete the statement instead, and then the token is refused again. -/
theorem Feeds.supply (hf : Feeds a s (.refused t)) (hs : Stacked s) (hb : b.terminal = .semicolon)
    (hsemi : Feeds b t (.shifted u)) :
    Feeds b s (.shifted u) ∨ ∀ o, Feeds a u o → ∃ v, o = .refused v := by
  generalize ho : Feed.refused t = o at hf
  induction hf with
  | accept | shift | stuck => cases ho
  | refuse open_ none =>
    cases ho
    exact .inl hsemi
  | @reduce s s₁ i o move reduced rest ih =>
    subst ho
    have hstacked := hs.reduce move reduced
    refine (ih hstacked rfl).elim (fun hfeed => ?_) .inr
    by_cases hext : extension? i = some .semicolon
    · -- `do` without a semicolon: a statement is complete, and the token was refused after it
      have h34 : i = 34 := by
        unfold extension? at hext
        split_ifs at hext with h32 h34
        · cases hext
        · exact h34
      subst h34
      obtain ⟨hrests, hnone⟩ := (rests_of_reduce (i := 34) (by decide +kernel) reduced).refused rest
      exact .inr fun o hfeeds => hrests.refused_again (rest.sound hstacked) hnone hb hsemi hfeeds
    · have hsemicolon := reduce_of_accepts hs move reduced (hb ▸ hfeed.accepts) hext
      exact .inl (.reduce (hb ▸ hsemicolon) reduced hfeed)

/-- After a semicolon that completes a statement, a token that is refused is refused after one more
semicolon. -/
theorem Feeds.refused_again (hf : Feeds a s (.refused t)) (hs : Stacked s)
    (hclose : closesStatement (topState s) = true) (hopen : topState s ≠ acceptState)
    (hb : b.terminal = .semicolon) (hsemi : Feeds b t (.shifted u)) (hfeed : Feeds a u o) :
    ∃ v, o = .refused v := by
  cases hf with
  | refuse open_ none =>
    have hnone : action? 26 a.terminal = Option.none := by
      by_contra hsome
      obtain ⟨x, hx⟩ := Option.ne_none_iff_exists'.1 hsome
      have := accepts_of_closesStatement hclose (accepts_of_action? hx)
      simp [Automaton.accepts, none, hopen] at this
    have htop : topState u = 26 := by
      cases hsemi with
      | shift move =>
        obtain ⟨i, hi, -⟩ := reduce_of_closesStatement hclose move
        cases hi
      | reduce move reduced rest =>
        obtain ⟨i, hi, hhead⟩ := reduce_of_closesStatement hclose move
        cases hi
        exact (rests_of_reduce hhead reduced).topState_of_shifted hb rest
    refine ⟨u, hfeed.refused_of_none ?_ ?_⟩
    · rw [htop]
      decide
    · rwa [htop]
  | reduce move reduced rest =>
    obtain ⟨i, hi, hhead⟩ := reduce_of_closesStatement hclose move
    cases hi
    have hstacked := hs.reduce move reduced
    obtain ⟨hrests, hnone⟩ := (rests_of_reduce hhead reduced).refused rest
    exact hrests.refused_again (rest.sound hstacked) hnone hb hsemi hfeed

/-- A sign is never refused after an operand. -/
theorem not_refused_of_takesSigns (h : takesSigns (topState s) = true)
    (ha : isSign a.terminal = true) : ¬ Feeds a s (.refused t) := by
  intro hf
  generalize ho : Feed.refused t = o at hf
  induction hf with
  | accept | shift | stuck => cases ho
  | refuse open_ none =>
    obtain ⟨x, hx⟩ | ⟨i, hx, -⟩ := takesSigns_cases h ha
    · cases none.symm.trans hx
    · cases none.symm.trans hx
  | @reduce s s₁ i o move reduced rest ih =>
    refine ih ?_ ho
    obtain ⟨x, hx⟩ | ⟨j, hx, hhead⟩ := takesSigns_cases h ha
    · cases move.symm.trans hx
    · cases move.symm.trans hx
      obtain ⟨r, parts, below, q, hr, -, -, hq, rfl⟩ := reduce?_eq_some_iff.1 reduced
      exact (settles_of_goto hq).2 (head_of_headIs hhead hr)

end

end Debundle.Derivation
