import Debundle.Proofs.Automaton.Regular
import Debundle.Proofs.Reading.Completeness

/-!
# Stacks of the automaton

The past of the state on top of a stack is the path that leads to it (`Stacked.walk?`). Where an
empty statement changes nothing, a token that is refused stays refused after one
(`Feeds.refused_after_empty`). Where a program is complete, its statements are all that is on the
stack (`Stacked.program`).
-/
namespace Debundle.Derivation

open Automaton

/-! ## Paths of the automaton -/

theorem walk?_append (p : Nat) (ss ts : List GrammarSymbol) :
    walk? p (ss ++ ts) = (walk? p ss).bind (walk? · ts) := by
  induction ss generalizing p with
  | nil => rfl
  | cons s ss ih =>
    rw [List.cons_append, walk?, walk?, Option.bind_assoc]
    exact congrArg _ (funext ih)

theorem Stacked.walk? {stack : List Frame} (h : Stacked stack) {ss : List GrammarSymbol}
    (hp : ss <+: past (topState stack)) :
    ∃ parts below, stack = parts ++ below ∧ parts.length = ss.length ∧
      Automaton.walk? (topState below) ss.reverse = some (topState stack) := by
  induction ss generalizing stack with
  | nil => exact ⟨[], stack, rfl, rfl, rfl⟩
  | cons s ss ih =>
    cases h with
    | nil => simp [topState, past_ends.1] at hp
    | @cons below x q d rest move derives =>
      have hq : q ≠ acceptState := by
        rintro rfl
        simp [past_ends.2.1] at hp
      obtain ⟨more, hpast, hmore⟩ := past_of_next move hq
      rw [topState_cons, hpast, List.cons_prefix_cons] at hp
      obtain ⟨rfl, hss⟩ := hp
      obtain ⟨parts, under, rfl, hlen, hwalk⟩ := ih rest (hss.trans hmore)
      refine ⟨⟨q, d⟩ :: parts, under, rfl, by simp [hlen], ?_⟩
      rw [List.reverse_cons, walk?_append, hwalk, Option.bind_some, Automaton.walk?, move]
      rfl

theorem Stacked.eq_nil {stack : List Frame} (h : Stacked stack) (h0 : topState stack = 0) :
    stack = [] := by
  cases h with
  | nil => rfl
  | cons rest move derives => exact absurd h0 (ne_zero_of_next move)

theorem ne_acceptState_of_shift {p q : Nat} {t : Terminal} (h : action? p t = some (.shift q)) :
    q ≠ acceptState := by
  rintro rfl
  cases eq_program_of_next (next?_terminal.2 h)

theorem Feeds.eq {a : Token} {s : List Frame} {o o' : Feed} (h : Feeds a s o) (h' : Feeds a s o') :
    o = o' :=
  (feed_eq_of_feeds h).symm.trans (feed_eq_of_feeds h')

theorem Feeds.finish_of_accepted {a : Token} {s : List Frame} {d : Derivation}
    (h : Feeds a s (.accepted d)) : a.terminal = .finish := by
  generalize ho : Feed.accepted d = o at h
  induction h with
  | accept top finish => exact finish
  | refuse | shift | stuck => cases ho
  | reduce move reduced rest ih => exact ih ho

/-! ## Empty statements -/

/-- In a state with one rule there is nothing to do but to reduce by it or to refuse a token. -/
theorem Feeds.only {a : Token} {i : Nat} {s s' : List Frame} {o : Feed} (h : Feeds a s o)
    (hk : onlyReduces (topState s) i = true) (hne : topState s ≠ acceptState)
    (hred : reduce? i s = some s') : (∃ u, o = .refused u) ∨ Feeds a s' o := by
  cases h with
  | accept top finish => exact absurd top hne
  | refuse open_ none => exact .inl ⟨_, rfl⟩
  | shift move => cases eq_of_onlyReduces hk move
  | reduce move reduced rest =>
    cases eq_of_onlyReduces hk move
    rw [hred, Option.some.injEq] at reduced
    exact .inr (reduced ▸ rest)
  | stuck move misfit =>
    cases eq_of_onlyReduces hk move
    rw [hred] at misfit
    cases misfit

theorem reduce?_unit {i q : Nat} {r : Rule} {s : List Frame} (f : Frame)
    (hr : Rule.all[i]? = some r) (hlen : r.body.length = 1)
    (hq : goto? (topState s) r.head = some q) :
    reduce? i (f :: s) = some (⟨q, .node i [f.tree]⟩ :: s) :=
  reduce?_eq_some_iff.2 ⟨r, [f], s, q, hr, rfl, hlen.symm, hq, rfl⟩

theorem Feeds.refused_of_none {a : Token} {s : List Frame} {o : Feed} (h : Feeds a s o)
    (hne : topState s ≠ acceptState) (hn : action? (topState s) a.terminal = none) :
    o = .refused s :=
  h.eq (.refuse (fun hopen => hne hopen.1) hn)

theorem Stacked.exists_statements {s : List Frame} (h : Stacked s)
    (hq : goto? (topState s) .statement = some 74) :
    ∃ d below, s = ⟨topState s, d⟩ :: below ∧
      goto? (topState below) .statements = some (topState s) := by
  obtain ⟨more, hpast, hmore⟩ := past_of_next (s := .nonterminal .statement) hq (by decide)
  have h74 : past 74 = [.nonterminal .statement, .nonterminal .statements] := by decide
  rw [h74, List.cons_eq_cons] at hpast
  rw [← hpast.2] at hmore
  cases h with
  | nil => simp [topState, past_ends.1] at hmore
  | @cons below x q d rest move derives =>
    have hacc : q ≠ acceptState := by
      rintro rfl
      simp [past_ends.2.1] at hmore
    obtain ⟨more', hpast', -⟩ := past_of_next move hacc
    rw [topState_cons, hpast', List.cons_prefix_cons] at hmore
    obtain ⟨rfl, -⟩ := hmore
    exact ⟨d, below, rfl, move⟩

theorem Feeds.refused_after_empty {a : Token} {d : Derivation} {s : List Frame} {o : Feed}
    (h : Feeds a (⟨26, d⟩ :: s) o) (hs : Stacked s)
    (hl : lists (topState s) a.terminal = true)
    (hn : action? (topState s) a.terminal = none) : ∃ u, o = .refused u := by
  obtain ⟨h26, h6, h3, h74⟩ := onlyReduces_empty
  have hrules : Rule.all[29]? = some ⟨.emptyStatement, [.terminal .semicolon], .empty⟩ ∧
      Rule.all[4]? = some ⟨.statement, [.nonterminal .emptyStatement], .pass⟩ ∧
      Rule.all[202]? = some ⟨.statements, [.nonterminal .statement], .gather⟩ ∧
      Rule.all[203]? = some ⟨.statements, [.nonterminal .statements, .nonterminal .statement],
        .gather⟩ := by decide +kernel
  obtain ⟨hr29, hr4, hr202, hr203⟩ := hrules
  simp only [lists, gotoAt, ← goto?_eq, Bool.and_eq_true, decide_eq_true_eq] at hl
  obtain ⟨hempty, hl⟩ := hl
  obtain hu | h := h.only h26 (by simp; decide) (reduce?_unit _ hr29 rfl hempty)
  · exact hu
  split at hl
  · rename_i next hnext
    -- the list begins with this statement
    rw [Bool.and_eq_true, decide_eq_true_eq, Option.isNone_iff_eq_none, ← action?_eq_moveAt] at hl
    obtain hu | h := h.only h6 (by simp; decide) (reduce?_unit _ hr4 rfl hl.1)
    · exact hu
    obtain hu | h := h.only h3 (by simp; decide) (reduce?_unit _ hr202 rfl hnext)
    · exact hu
    · refine ⟨_, h.refused_of_none ?_ hl.2⟩
      rintro rfl
      cases eq_program_of_next (s := .nonterminal .statements) hnext
  · -- the list goes on as it was
    rw [decide_eq_true_eq] at hl
    obtain hu | h := h.only h6 (by simp; decide) (reduce?_unit _ hr4 rfl hl)
    · exact hu
    obtain ⟨st, below, heq, hgoto⟩ := hs.exists_statements hl
    generalize topState s = p at *
    subst heq
    obtain hu | h := h.only h74 (by simp; decide)
      (reduce?_eq_some_iff.2 ⟨_, [_, _], below, p, hr203, rfl, rfl, hgoto, rfl⟩)
    · exact hu
    · refine ⟨_, h.refused_of_none ?_ hn⟩
      rintro rfl
      cases eq_program_of_next (s := .nonterminal .statements) hgoto

/-! ## Complete programs -/

section

variable {s t : List Frame} {a : Token}

theorem feeds_acceptState (ha : a.terminal = .finish) (d : Derivation) (rest : List Frame)
    {q : Nat} (hq : goto? 0 .program = some q) :
    Feeds a (⟨q, d⟩ :: rest) (.accepted d) := by
  have hgoto : goto? 0 .program = some acceptState := by
    rw [goto?_eq]
    decide +kernel
  rw [hgoto, Option.some.injEq] at hq
  have hframe : (⟨q, d⟩ : Frame).state = acceptState := hq.symm
  exact .accept hframe ha

theorem Stacked.program {i : Nat} (h : Stacked s)
    (hi : i = 0 ∧ topState s = 2 ∨ i = 1 ∧ topState s = 0) (hred : reduce? i s = some t)
    (ha : a.terminal = .finish) :
    (s = [] ∧ Feeds a t (.accepted (.node 1 [])) ∨
      ∃ d, s = [⟨2, d⟩] ∧ Feeds a t (.accepted (.node 0 [d]))) := by
  have hrules : Rule.all[0]? = some ⟨.program, [.nonterminal .statements], .program⟩ ∧
      Rule.all[1]? = some ⟨.program, [], .program⟩ := by decide +kernel
  obtain ⟨r, parts, below, q, hr, rfl, hlen, hq, rfl⟩ := reduce?_eq_some_iff.1 hred
  obtain ⟨rfl, htop⟩ | ⟨rfl, htop⟩ := hi
  · rw [hrules.1] at hr
    cases hr
    obtain ⟨f, rfl⟩ := List.length_eq_one_iff.1 hlen
    cases h with
    | @cons _ x _ d rest move derives =>
      subst htop
      obtain rfl := rest.eq_nil (eq_zero_of_next_two move).1
      exact .inr ⟨d, rfl, feeds_acceptState ha _ _ hq⟩
  · rw [hrules.2] at hr
    cases hr
    obtain rfl := List.length_eq_zero_iff.1 hlen
    obtain rfl := h.eq_nil htop
    exact .inl ⟨rfl, feeds_acceptState ha _ _ hq⟩

end

end Debundle.Derivation
