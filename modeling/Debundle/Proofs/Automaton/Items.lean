import Debundle.Proofs.Reading.Stacks

/-!
# The automaton never gets stuck

A state is about rules of which some part was read. Whoever began to read a rule can go on after
its head, so a rule that is complete can always be reduced by (`exists_reduce`), and the automaton
either takes a token or refuses it (`Feeds.ne_broken`).
-/
namespace Debundle

namespace Automaton

/-- The rules that a state is about, each with how much of its body was read, `progress` apart.
States that are about one rule only are left out; the others stand in blocks of twenty. -/
def otherProgress : List (List (Nat × List (Nat × Nat))) :=
  [[(2, [(203, 1)])],
   [(24, [(23, 1)]), (27, [(80, 1)]), (28, [(32, 1)]), (29, [(34, 1)]), (31, [(37, 1), (38, 1),
    (39, 1), (40, 1), (41, 1), (42, 1), (43, 1), (46, 1), (47, 1)]), (32, [(49, 1)]),
    (33, [(51, 1)]), (34, [(53, 1)]), (36, [(56, 1)]), (37, [(179, 1)]), (39, [(64, 1), (65, 1)])],
   [(42, [(26, 1)]), (45, [(143, 1), (144, 1)]), (46, [(100, 1)]), (48, [(169, 1), (170, 1),
    (171, 1)]), (49, [(104, 1)]), (50, [(161, 1), (162, 1), (168, 1)]), (51, [(163, 1)])],
   [(73, [(189, 1)]), (75, [(203, 1)])],
   [(80, [(32, 2)]), (81, [(34, 2)]), (83, [(37, 2), (38, 2), (39, 2), (40, 2), (41, 2), (42, 2),
    (43, 2), (46, 2), (47, 2)]), (88, [(78, 1)]), (92, [(141, 1), (142, 1)]), (93, [(98, 1)]),
    (95, [(165, 1), (166, 1), (167, 1)]), (96, [(102, 1)]), (97, [(157, 1), (158, 1), (164, 1)]),
    (98, [(159, 1)])],
   [(105, [(71, 1)]), (107, [(193, 1), (194, 1), (195, 1), (196, 1)]), (109, [(56, 2)]),
    (111, [(78, 1)]), (112, [(64, 2), (65, 2)]), (115, [(26, 2)]), (116, [(28, 1)])],
   [(137, [(173, 1), (174, 1)]), (138, [(213, 1)])],
   [],
   [(167, [(151, 1), (157, 1), (158, 1)]), (169, [(142, 1)]), (170, [(78, 1)]), (171, [(189, 2)]),
    (175, [(32, 3), (78, 1)]), (176, [(34, 3)]), (177, [(78, 1)]), (178, [(37, 3), (38, 3),
    (39, 3)]), (179, [(41, 3), (42, 3), (43, 3)])],
   [(180, [(45, 1), (78, 1)]), (181, [(25, 1), (26, 1)]), (193, [(213, 1)]), (198, [(151, 1),
    (157, 1), (158, 1)])],
   [(202, [(193, 2), (194, 2), (195, 2)]), (205, [(199, 1)]), (208, [(78, 1)]), (209, [(56, 3),
    (78, 1)]), (212, [(64, 3)]), (217, [(205, 1)])],
   [(224, [(78, 1)]), (225, [(173, 2)]), (230, [(78, 1)]), (233, [(217, 1)]), (236, [(32, 4)]),
    (237, [(34, 4)]), (239, [(37, 4), (38, 4), (39, 4)])],
   [(240, [(41, 4), (78, 1)]), (241, [(43, 4)]), (243, [(27, 1), (28, 1)]), (248, [(78, 1)]),
    (250, [(78, 1)]), (254, [(73, 1)]), (255, [(193, 3), (219, 1)]), (256, [(218, 1)])],
   [(262, [(56, 4)]), (272, [(215, 1)])],
   [(280, [(32, 5)]), (281, [(34, 5), (78, 1)]), (283, [(37, 5), (78, 1)]), (284, [(39, 5)]),
    (285, [(41, 5)]), (286, [(78, 1)]), (295, [(211, 1)]), (297, [(219, 2)])],
   [(304, [(56, 5)]), (314, [(34, 6)]), (315, [(37, 6)]), (316, [(78, 1)]), (318, [(78, 1)])],
   [(322, [(78, 1)]), (326, [(76, 1)]), (332, [(208, 1), (209, 1)]), (336, [(58, 1)]),
    (337, [(60, 1)])],
   [(343, [(78, 1)]), (352, [(203, 1)]), (359, [(58, 2), (78, 1)])],
   [(360, [(60, 2)]), (369, [(58, 3)]), (370, [(203, 1)]), (372, [(203, 1)])]]

/-- All rules that are being read in a state, each with how much of its body was read. -/
def begun (state : Nat) : List (Nat × Nat) :=
  ((progress[state / 20]?.bind (·[state % 20]?)).toList ++
    ((otherProgress[state / 20]?.bind (·.lookup state)).getD []))

/-- Whether a rule of which some part was read was read that far, less one symbol, in the state
before, or was begun there, where its head leads on. -/
def continues (row : Row) (before : List (Nat × Nat)) (item : Nat × Nat) : Bool :=
  match item.2 with
  | 0 => true
  | 1 => (ruleAt item.1).all fun r => (row.goto? r.head).isSome
  | n + 2 => (item.1, n + 1) ∈ before

/-- Whether a rule was read to its end. -/
def isComplete (row : Row) (here : List (Nat × Nat)) (rule : Nat) : Bool :=
  (ruleAt rule).all fun r =>
    if r.body.length = 0 then (row.goto? r.head).isSome else (rule, r.body.length) ∈ here

def keepsBegun (state : Nat) : Bool :=
  match rowAt state with
  | none => true
  | some row =>
    row.moves.all (fun move => (begun move.2).all (continues row (begun state))) &&
      row.reduces.all fun r => isComplete row (begun state) r.2

set_option maxRecDepth 10000 in
theorem keepsBegun_all : (List.range 373).all keepsBegun = true := by decide +kernel

theorem keepsBegun_of_row {state : Nat} {row : Row} (h : rowAt state = some row) :
    (∀ move ∈ row.moves, ∀ item ∈ begun move.2, continues row (begun state) item = true) ∧
      ∀ r ∈ row.reduces, isComplete row (begun state) r.2 = true := by
  have hstate : keepsBegun state = true :=
    of_all_states keepsBegun_all (fun state hnone => by rw [keepsBegun, hnone]) state
  rw [keepsBegun, h] at hstate
  simpa [List.all_eq_true] using hstate

end Automaton

namespace Derivation

open Automaton

variable {s s' : List Frame} {rule : Nat} {r : Rule}

theorem Stacked.goto_of_begun (h : Stacked s) (hr : Rule.all[rule]? = some r) {k : Nat}
    (hb : (rule, k + 1) ∈ begun (topState s)) :
    ∃ q, goto? (topState (s.drop (k + 1))) r.head = some q := by
  induction h generalizing k with
  | nil =>
    have hzero : begun 0 = [(0, 0)] := by decide
    rw [topState, hzero] at hb
    simp at hb
  | @cons below x q d rest move derives ih =>
    obtain ⟨row, hrow, hmove⟩ := mem_moves_of_next? move
    have hcontinues := (keepsBegun_of_row hrow).1 _ hmove _ hb
    cases k with
    | zero =>
      rw [continues] at hcontinues
      simp only [← rules_getElem?, hr, Option.all_some] at hcontinues
      obtain ⟨q, hq⟩ := Option.isSome_iff_exists.1 hcontinues
      exact ⟨q, by rw [List.drop_succ_cons, List.drop_zero, goto?_eq, hrow]; exact hq⟩
    | succ k =>
      rw [continues] at hcontinues
      exact ih (of_decide_eq_true hcontinues)

theorem Stacked.exists_reduce (h : Stacked s) {t : Terminal}
    (move : action? (topState s) t = some (.reduce rule)) : ∃ s', reduce? rule s = some s' := by
  obtain ⟨r, hr, hpast⟩ := past_of_reduce move
  obtain ⟨parts, below, rfl, -, hall⟩ := h.split hpast
  have hlen : parts.length = r.body.length := by simpa using hall.length_eq.symm
  obtain ⟨row, hrow, ts, hmem, -⟩ := mem_reduces_of_action? move
  have hcomplete := (keepsBegun_of_row hrow).2 _ hmem
  simp only [isComplete, ← rules_getElem?, hr, Option.all_some] at hcomplete
  obtain ⟨q, hq⟩ : ∃ q, goto? (topState below) r.head = some q := by
    split_ifs at hcomplete with hempty
    · obtain rfl : parts = [] := List.length_eq_zero_iff.1 (hlen.trans hempty)
      obtain ⟨q, hq⟩ := Option.isSome_iff_exists.1 hcomplete
      rw [List.nil_append] at hrow
      exact ⟨q, by rw [goto?_eq, hrow]; exact hq⟩
    · obtain ⟨k, hk⟩ := Nat.exists_eq_succ_of_ne_zero hempty
      obtain ⟨q, hq⟩ := h.goto_of_begun hr (hk ▸ of_decide_eq_true hcomplete)
      refine ⟨q, ?_⟩
      rwa [← Nat.succ_eq_add_one, ← hk, ← hlen, List.drop_left] at hq
  exact ⟨_, reduce?_eq_some_iff.2 ⟨r, parts, below, q, hr, rfl, hlen, hq, rfl⟩⟩

theorem Feeds.ne_broken {token : Token} {o : Feed} (h : Feeds token s o) (hs : Stacked s) :
    o ≠ .broken := by
  induction h with
  | accept | refuse | shift => nofun
  | reduce move reduced _ ih => exact ih (hs.reduce move reduced)
  | stuck move misfit =>
    obtain ⟨s', hs'⟩ := hs.exists_reduce move
    cases misfit.symm.trans hs'

end Derivation

end Debundle
