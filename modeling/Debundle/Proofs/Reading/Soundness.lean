import Debundle.Proofs.Reading.Feed
import Debundle.Reading.Reader

/-!
# What the reader accepts is derived from the grammar

A stack holds, from the bottom up, derivations of the symbols on a path of the automaton. Every
move keeps that, semicolons supplied by the reader included, so a derivation that the reader
returns is one of a program (`derives_of_read`).
-/
namespace Debundle

/-- A derivation follows the rules of the grammar. -/
inductive Derives : GrammarSymbol → Derivation → Prop
  | leaf (token : Token) : Derives (.terminal token.terminal) (.leaf token)
  | node {i : Nat} {r : Rule} {parts : List Derivation} (rule : Rule.all[i]? = some r)
      (all : List.Forall₂ Derives r.body parts) : Derives (.nonterminal r.head) (.node i parts)

/-- Induction over derivations that follow the grammar: a property of every part of a node. -/
@[elab_as_elim] theorem Derives.induct {motive : GrammarSymbol → Derivation → Prop}
    (leaf : ∀ token : Token, motive (.terminal token.terminal) (.leaf token))
    (node : ∀ {i : Nat} {r : Rule} {parts : List Derivation}, Rule.all[i]? = some r →
      List.Forall₂ Derives r.body parts → List.Forall₂ motive r.body parts →
      motive (.nonterminal r.head) (.node i parts))
    {s : GrammarSymbol} {d : Derivation} (h : Derives s d) : motive s d :=
  @Derives.rec (fun s d _ => motive s d) (fun ss ds _ => List.Forall₂ motive ss ds)
    leaf (fun rule all ih => node rule all ih) .nil (fun _ _ h t => .cons h t) s d h

namespace Derivation

open Automaton

mutual

/-- The tokens of a derivation. -/
def leaves : Derivation → List Token
  | .leaf a => [a]
  | .node _ parts => leavesAll parts

def leavesAll : List Derivation → List Token
  | [] => []
  | d :: ds => leaves d ++ leavesAll ds

end

theorem mem_leavesAll {a : Token} {ds : List Derivation} :
    a ∈ leavesAll ds ↔ ∃ d ∈ ds, a ∈ d.leaves := by
  induction ds with
  | nil => simp [leavesAll]
  | cons d ds ih => simp [leavesAll, ih]

/-- The frames of a stack stand on a path of the automaton. -/
inductive Stacked : List Frame → Prop
  | nil : Stacked []
  | cons {below : List Frame} {s : GrammarSymbol} {q : Nat} {d : Derivation}
      (rest : Stacked below) (move : next? (topState below) s = some q) (derives : Derives s d) :
      Stacked (⟨q, d⟩ :: below)

theorem Stacked.split {stack : List Frame} (h : Stacked stack) {ss : List GrammarSymbol}
    (hp : ss <+: past (topState stack)) :
    ∃ parts below, stack = parts ++ below ∧ Stacked below ∧
      List.Forall₂ Derives ss (parts.map Frame.tree) := by
  induction ss generalizing stack with
  | nil => exact ⟨[], stack, rfl, h, .nil⟩
  | cons s ss ih =>
    cases h with
    | nil =>
      simp [topState, past_ends.1] at hp
    | @cons below x q d rest move derives =>
      have hq : q ≠ acceptState := by
        rintro rfl
        simp [past_ends.2.1] at hp
      obtain ⟨more, hpast, hmore⟩ := past_of_next move hq
      rw [topState_cons, hpast, List.cons_prefix_cons] at hp
      obtain ⟨rfl, hss⟩ := hp
      obtain ⟨parts, under, rfl, hunder, hparts⟩ := ih rest (hss.trans hmore)
      exact ⟨⟨q, d⟩ :: parts, under, rfl, hunder, .cons derives hparts⟩

theorem Stacked.reduce {t : Terminal} {i : Nat} {s s' : List Frame} (h : Stacked s)
    (move : action? (topState s) t = some (.reduce i)) (reduced : reduce? i s = some s') :
    Stacked s' := by
  obtain ⟨r, parts, below, q, hr, rfl, hlen, hq, rfl⟩ := reduce?_eq_some_iff.1 reduced
  obtain ⟨r', hr', hpast⟩ := past_of_reduce move
  obtain rfl : r = r' := Option.some.inj (hr.symm.trans hr')
  obtain ⟨parts', below', heq, hbelow, hparts⟩ := h.split hpast
  have hlen' : parts.length = parts'.length := by
    rw [hlen, ← List.length_reverse, hparts.length_eq, List.length_map]
  obtain ⟨rfl, rfl⟩ := List.append_inj heq hlen'
  refine .cons hbelow (s := .nonterminal r.head) hq (.node hr ?_)
  rwa [← List.forall₂_reverse_iff, List.map_reverse, List.reverse_reverse]

/-- What is true after a token was given to the automaton. -/
def Feed.Sound : Feed → Prop
  | .shifted stack | .refused stack => Stacked stack
  | .accepted tree => Derives (.nonterminal .program) tree
  | .broken => True

theorem Feeds.sound {token : Token} {s : List Frame} {o : Feed} (h : Feeds token s o)
    (hs : Stacked s) : o.Sound := by
  induction h with
  | accept top finish =>
    cases hs with
    | cons rest move derives =>
      simp only at top
      subst top
      cases eq_program_of_next move
      exact derives
  | refuse open_ none => exact hs
  | shift move => exact .cons hs (next?_terminal.2 move) (.leaf _)
  | reduce move reduced rest ih => exact ih (hs.reduce move reduced)
  | stuck move misfit => trivial

theorem sound_feed {token : Token} {s : List Frame} (hs : Stacked s) : (feed token s).Sound :=
  (feeds_feed token s).sound hs

end Derivation

namespace Reader

open Derivation

/-- What is true after a step of the reader. -/
def Step.Sound : Step → Prop
  | .next r => Stacked r.stack
  | .done tree _ => Derives (.nonterminal .program) tree
  | .stopped _ _ => True

theorem sound_insert {r : Reader} (h : Stacked r.stack) (token : Token) :
    (r.insert token).Sound := by
  have : (feed (semicolonAt token) r.stack).Sound := sound_feed h
  unfold insert
  dsimp only
  split <;> simp_all [Step.Sound, Feed.Sound]

theorem sound_recover {r : Reader} (h : Stacked r.stack) (token : Token) :
    (r.recover token).Sound := by
  unfold recover
  dsimp only
  split
  · trivial
  · have hi := @sound_insert { r with patched := (token.terminal, token.start) :: r.patched }
      h token
    split
    · rename_i r' heq
      rw [heq] at hi
      split
      · exact hi
      · have hf : (feed token r'.stack).Sound := sound_feed hi
        split <;> simp_all [Step.Sound, Feed.Sound]
    · exact hi

theorem sound_give {r : Reader} (h : Stacked r.stack) (token : Token) :
    (r.give token).Sound := by
  have hf : (feed token r.stack).Sound := sound_feed h
  unfold give
  split
  · simp_all [Step.Sound, Feed.Sound]
  · simp_all [Step.Sound, Feed.Sound]
  · rename_i stack heq
    rw [heq] at hf
    exact sound_recover (r := { r with stack := stack }) hf token
  · trivial

theorem sound_prepare {r r' : Reader} {token token' : Token} (h : Stacked r.stack)
    (hp : r.prepare token = .ready token' r') : Stacked r'.stack := by
  have hi := sound_insert h token
  unfold prepare at hp
  split at hp
  · cases hp; exact h
  · split_ifs at hp
    all_goals first
      | (cases hp; exact h)
      | (split at hp <;> simp_all [Step.Sound])

theorem sound_step {r : Reader} (h : Stacked r.stack) : r.step.Sound := by
  unfold step
  split
  · exact sound_give h _
  · rename_i token after _
    split
    · rename_i token' r' hp
      exact sound_give (sound_prepare (r := { r with cursor := after, last := some token }) h hp) _
    · trivial
  · dsimp only
    split
    · exact sound_recover (by exact h) _
    · split <;> trivial

theorem derives_of_run {fuel : Nat} {r r' : Reader} {d : Derivation} (h : Stacked r.stack)
    (hr : run fuel r = (.ok d, r')) : Derives (.nonterminal .program) d := by
  induction fuel generalizing r with
  | zero => cases hr
  | succ fuel ih =>
    have hs := sound_step h
    unfold run at hr
    split at hr
    · rename_i next heq
      rw [heq] at hs
      exact ih hs hr
    · rename_i tree next heq
      rw [heq] at hs
      cases hr
      exact hs
    · cases hr

theorem derives_of_read {cs : List Char} {d : Derivation} (h : (read cs).1 = .ok d) :
    Derives (.nonterminal .program) d :=
  derives_of_run (r := ofText cs) .nil (Prod.ext h rfl)

end Reader

end Debundle
