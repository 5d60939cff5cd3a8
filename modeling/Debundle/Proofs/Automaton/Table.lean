import Mathlib
import Debundle.Reading.Derivation

/-!
# What the table holds

Facts about the rows of the automaton that its soundness and its completeness rest on. Every
state fixes the last symbols that were read before it (`past_of_next`, `past_of_reduce`). Where a
nonterminal leads on, every rule for it leads on as well, and ends in a state that reduces by that
rule before all that may come next (`reduce_of_goto`).
-/
namespace Debundle.Automaton

/-- The state that a shift enters. -/
def Action.target? : Action → Option Nat
  | .shift next => some next
  | .reduce _ => none

/-- The state after a symbol. -/
def next? (state : Nat) : GrammarSymbol → Option Nat
  | .terminal t => (action? state t).bind Action.target?
  | .nonterminal n => goto? state n

theorem next?_terminal {p q : Nat} {t : Terminal} :
    next? p (.terminal t) = some q ↔ action? p t = some (.shift q) := by
  rw [next?, Option.bind_eq_some_iff]
  constructor
  · rintro ⟨_ | _, h, ht⟩ <;> cases ht
    exact h
  · exact fun h => ⟨_, h, rfl⟩

/-- The state after several symbols. -/
def walk? (state : Nat) : List GrammarSymbol → Option Nat
  | [] => some state
  | s :: rest => (next? state s).bind (walk? · rest)

/-- The row of a state, found in its own block of rows. -/
def rowAt (state : Nat) : Option Row :=
  match state / 60 with
  | 0 => rows0[state % 60]?
  | 1 => rows1[state % 60]?
  | 2 => rows2[state % 60]?
  | 3 => rows3[state % 60]?
  | 4 => rows4[state % 60]?
  | 5 => rows5[state % 60]?
  | 6 => rows6[state % 60]?
  | _ => none

private theorem getElem?_block {block rest : List Row} (h : block.length = 60) (n place : Nat)
    (below : place < 60) :
    (block ++ rest)[60 * n + place]? =
      match n with
      | 0 => block[place]?
      | n + 1 => rest[60 * n + place]? := by
  cases n with
  | zero => rw [List.getElem?_append_left (by omega)]; congr 1; omega
  | succ n => rw [List.getElem?_append_right (by omega)]; congr 1; omega

theorem rows_getElem? (state : Nat) : rows[state]? = rowAt state := by
  have split := Nat.div_add_mod state 60
  have below := Nat.mod_lt state (show 0 < 60 by decide)
  rw [← split]
  generalize state / 60 = n at *
  generalize state % 60 = place at *
  rw [rowAt, rows, List.getElem?_toArray]
  simp only [List.append_assoc]
  rw [show (60 * n + place) / 60 = n by omega, show (60 * n + place) % 60 = place by omega]
  rw [getElem?_block (show rows0.length = 60 from rfl) _ _ below]
  match n with
  | 0 => rfl
  | n + 1 =>
    simp only [getElem?_block (show rows1.length = 60 from rfl) _ _ below,
      getElem?_block (show rows2.length = 60 from rfl) _ _ below,
      getElem?_block (show rows3.length = 60 from rfl) _ _ below,
      getElem?_block (show rows4.length = 60 from rfl) _ _ below,
      getElem?_block (show rows5.length = 60 from rfl) _ _ below]
    match n with
    | 0 | 1 | 2 | 3 | 4 => rfl
    | 5 => simp
    | n + 6 =>
      simp only [List.getElem?_eq_none_iff, show rows6.length = 13 from rfl]
      omega

theorem action?_eq (state : Nat) (t : Terminal) :
    action? state t = (rowAt state).bind (·.action? t) := by
  unfold action?
  rw [rows_getElem?]

theorem goto?_eq (state : Nat) (n : Nonterminal) :
    goto? state n = (rowAt state).bind (·.goto? n) := by
  unfold goto?
  rw [rows_getElem?]

theorem rowAt_eq_none {state : Nat} (h : 373 ≤ state) : rowAt state = none := by
  have h6 : rows6.length = 13 := rfl
  unfold rowAt
  split <;> first | omega | rfl | skip
  rw [List.getElem?_eq_none_iff, h6]
  omega

attribute [irreducible] rowAt

theorem of_all_states {test : Nat → Bool} (h : (List.range 373).all test = true)
    (beyond : ∀ state, rowAt state = none → test state = true) (state : Nat) :
    test state = true := by
  by_cases hs : state < 373
  · exact List.all_eq_true.1 h state (List.mem_range.2 hs)
  · exact beyond state (rowAt_eq_none (by omega))

/-- A rule, found in its own group of rules. -/
def ruleAt (rule : Nat) : Option Rule :=
  if rule < 22 then Rule.statementRules[rule]?
  else if rule < 31 then Rule.plainRules[rule - 22]?
  else if rule < 48 then Rule.controlRules[rule - 31]?
  else if rule < 69 then Rule.clauseRules[rule - 48]?
  else if rule < 77 then Rule.functionRules[rule - 69]?
  else if rule < 147 then Rule.operatorRules[rule - 77]?
  else if rule < 176 then Rule.accessRules[rule - 147]?
  else if rule < 202 then Rule.primaryRules[rule - 176]?
  else Rule.listRules[rule - 202]?

theorem ruleAt_all : Rule.all.toList.zipIdx.all (fun r => ruleAt r.2 = some r.1) = true := by
  decide

theorem rules_getElem? (rule : Nat) : Rule.all[rule]? = ruleAt rule := by
  rw [← Array.getElem?_toList]
  by_cases h : rule < Rule.all.toList.length
  · have hget := List.getElem?_eq_getElem h
    have := List.all_eq_true.1 ruleAt_all (_, rule) (List.mem_zipIdx_iff_getElem?.2 hget)
    rw [hget, of_decide_eq_true this]
  · have hall : Rule.all.toList.length = 220 := rfl
    have hlist : Rule.listRules.length = 18 := rfl
    have hrest : Rule.listRules[rule - 202]? = none := List.getElem?_eq_none (by omega)
    rw [List.getElem?_eq_none (by omega), ruleAt]
    simp [show ¬ rule < 22 by omega, show ¬ rule < 31 by omega, show ¬ rule < 48 by omega,
      show ¬ rule < 69 by omega, show ¬ rule < 77 by omega, show ¬ rule < 147 by omega,
      show ¬ rule < 176 by omega, show ¬ rule < 202 by omega, hrest]

/-! ## The past of a state -/

/-- For every state, a rule that is being read there and how much of its body was read. Of the
rules that a state is about, this is one of which most was read. States stand in blocks of
twenty. -/
def progress : List (List (Nat × Nat)) :=
  [[(0, 0), (0, 0), (0, 1), (202, 1), (2, 1), (3, 1), (4, 1), (5, 1), (6, 1), (7, 1), (8, 1),
    (9, 1), (10, 1), (11, 1), (12, 1), (13, 1), (14, 1), (15, 1), (16, 1), (17, 1)],
   [(18, 1), (19, 1), (20, 1), (21, 1), (22, 1), (24, 1), (29, 1), (30, 1), (31, 1), (33, 1),
    (35, 1), (36, 1), (48, 1), (50, 1), (52, 1), (54, 1), (55, 1), (61, 1), (62, 1), (63, 1)],
   [(68, 1), (69, 1), (25, 1), (79, 1), (83, 1), (84, 1), (99, 1), (149, 1), (150, 1), (103, 1),
    (153, 1), (154, 1), (130, 1), (131, 1), (160, 1), (132, 1), (133, 1), (134, 1), (135, 1),
    (136, 1)],
   [(137, 1), (138, 1), (139, 1), (140, 1), (178, 1), (180, 1), (181, 1), (182, 1), (183, 1),
    (184, 1), (185, 1), (186, 1), (187, 1), (188, 1), (203, 2), (22, 2), (23, 2), (24, 2),
    (30, 2), (80, 2)],
   [(31, 2), (33, 2), (35, 2), (36, 2), (48, 2), (49, 2), (50, 2), (51, 2), (52, 2), (53, 2),
    (77, 1), (81, 1), (82, 1), (97, 1), (147, 1), (148, 1), (101, 1), (151, 1), (152, 1), (128, 1)],
   [(129, 1), (155, 1), (156, 1), (176, 1), (177, 1), (70, 1), (179, 1), (192, 1), (54, 2),
    (55, 2), (61, 2), (62, 2), (63, 2), (68, 2), (69, 2), (25, 2), (27, 1), (84, 2), (144, 2),
    (85, 1)],
   [(86, 1), (87, 1), (88, 1), (89, 1), (90, 1), (91, 1), (92, 1), (93, 1), (94, 1), (95, 1),
    (96, 1), (145, 1), (146, 1), (100, 2), (169, 2), (170, 2), (171, 2), (172, 1), (103, 2),
    (212, 1)],
   [(105, 1), (106, 1), (107, 1), (108, 1), (109, 1), (110, 1), (111, 1), (112, 1), (113, 1),
    (114, 1), (115, 1), (116, 1), (117, 1), (118, 1), (119, 1), (120, 1), (121, 1), (122, 1),
    (123, 1), (124, 1)],
   [(125, 1), (126, 1), (127, 1), (161, 2), (162, 2), (168, 2), (154, 2), (163, 2), (131, 2),
    (141, 1), (187, 2), (188, 2), (190, 1), (22, 3), (80, 3), (31, 3), (33, 3), (35, 3), (36, 3),
    (40, 3)],
   [(46, 3), (47, 3), (44, 1), (48, 3), (50, 3), (52, 3), (78, 2), (82, 2), (142, 2), (98, 2),
    (165, 2), (166, 2), (167, 2), (101, 2), (157, 2), (158, 2), (164, 2), (152, 2), (159, 2),
    (129, 2)],
   [(70, 2), (71, 2), (192, 2), (196, 2), (197, 1), (198, 1), (200, 1), (201, 1), (54, 3),
    (55, 3), (61, 3), (62, 3), (63, 3), (65, 3), (66, 1), (67, 1), (69, 3), (25, 3), (204, 1),
    (27, 2)],
   [(84, 3), (100, 3), (170, 3), (175, 1), (171, 3), (172, 2), (174, 2), (213, 2), (212, 2),
    (161, 3), (162, 3), (163, 3), (187, 3), (188, 3), (189, 3), (216, 1), (31, 4), (33, 4),
    (35, 4), (36, 4)],
   [(40, 4), (42, 4), (46, 4), (47, 4), (78, 3), (82, 3), (98, 3), (166, 3), (167, 3), (157, 3),
    (158, 3), (159, 3), (70, 3), (71, 3), (72, 1), (192, 3), (194, 3), (195, 3), (197, 2),
    (198, 2)],
   [(199, 1), (54, 4), (55, 4), (63, 4), (66, 2), (67, 2), (69, 4), (205, 2), (204, 2), (27, 3),
    (100, 4), (171, 4), (172, 3), (173, 3), (214, 1), (213, 3), (162, 4), (188, 4), (217, 2),
    (216, 2)],
   [(31, 5), (33, 5), (35, 5), (36, 5), (38, 5), (40, 5), (42, 5), (43, 5), (46, 5), (47, 5),
    (98, 4), (167, 4), (158, 4), (70, 4), (71, 4), (72, 2), (210, 1), (192, 4), (193, 4), (194, 4)],
   [(218, 2), (197, 3), (198, 3), (54, 5), (55, 5), (66, 3), (69, 5), (205, 3), (100, 5),
    (172, 4), (215, 2), (214, 2), (217, 3), (31, 6), (33, 6), (36, 6), (38, 6), (39, 6), (40, 6),
    (41, 6)],
   [(42, 6), (43, 6), (47, 6), (98, 5), (70, 5), (71, 5), (75, 1), (211, 2), (210, 2), (192, 5),
    (219, 3), (198, 4), (55, 6), (56, 6), (206, 1), (207, 1), (57, 1), (59, 1), (66, 4), (69, 6)],
   [(215, 3), (31, 7), (33, 7), (36, 7), (37, 7), (38, 7), (39, 7), (40, 7), (41, 7), (42, 7),
    (47, 7), (70, 6), (75, 2), (76, 2), (211, 3), (198, 5), (55, 7), (208, 2), (209, 2), (57, 2)],
   [(59, 2), (66, 5), (36, 8), (37, 8), (38, 8), (40, 8), (47, 8), (75, 3), (198, 6), (57, 3),
    (59, 3), (36, 9), (57, 4)]]

/-- The symbols read last before a state, the last one first. -/
def past (state : Nat) : List GrammarSymbol :=
  match progress[state / 20]?.bind (·[state % 20]?) with
  | none => []
  | some (rule, count) =>
    match ruleAt rule with
    | none => []
    | some r => (r.body.take count).reverse

/-- The moves of a row. -/
def Row.moves (row : Row) : List (GrammarSymbol × Nat) :=
  row.shifts.map (fun s => (.terminal s.1, s.2)) ++ row.gotos.map fun g => (.nonterminal g.1, g.2)

/-- Whether what was read before a state is what stands before its last symbol. -/
def leadsTo (before : List GrammarSymbol) (move : GrammarSymbol × Nat) : Bool :=
  match past move.2 with
  | [] => move = (.nonterminal .program, acceptState)
  | s :: more => s = move.1 && more.isPrefixOf before

def endsWith (before : List GrammarSymbol) (rule : Nat) : Bool :=
  match ruleAt rule with
  | none => false
  | some r => r.body.reverse.isPrefixOf before

def keepsPast (state : Nat) : Bool :=
  match rowAt state with
  | none => true
  | some row =>
    row.moves.all (leadsTo (past state)) && row.reduces.all fun r => endsWith (past state) r.2

set_option maxRecDepth 10000 in
theorem keepsPast_all : (List.range 373).all keepsPast = true := by decide +kernel

theorem past_ends : past 0 = [] ∧ past acceptState = [] ∧ (rowAt acceptState).isSome = true := by
  decide +kernel

theorem keepsPast_of_row {state : Nat} {row : Row} (h : rowAt state = some row) :
    (∀ move ∈ row.moves, leadsTo (past state) move = true) ∧
      ∀ r ∈ row.reduces, endsWith (past state) r.2 = true := by
  have test := of_all_states keepsPast_all (by simp +contextual [keepsPast]) state
  simpa [keepsPast, h] using test

theorem mem_moves_of_next? {state q : Nat} {s : GrammarSymbol} (h : next? state s = some q) :
    ∃ row, rowAt state = some row ∧ (s, q) ∈ row.moves := by
  cases s with
  | terminal t =>
    rw [next?_terminal, action?_eq, Option.bind_eq_some_iff] at h
    obtain ⟨row, hrow, h⟩ := h
    refine ⟨row, hrow, ?_⟩
    unfold Row.action? at h
    split at h
    · rename_i move hfind
      have ht := List.find?_some hfind
      have hm := List.mem_of_find?_eq_some hfind
      simp only [Option.some.injEq, Action.shift.injEq, decide_eq_true_eq] at h ht
      exact List.mem_append_left _ (List.mem_map.2 ⟨move, hm, by rw [ht, h]⟩)
    · simp at h
  | nonterminal n =>
    rw [next?, goto?_eq, Option.bind_eq_some_iff] at h
    obtain ⟨row, hrow, h⟩ := h
    obtain ⟨move, hfind, rfl⟩ := Option.map_eq_some_iff.1 h
    have hn := List.find?_some hfind
    have hm := List.mem_of_find?_eq_some hfind
    simp only [decide_eq_true_eq] at hn
    exact ⟨row, hrow, List.mem_append_right _ (List.mem_map.2 ⟨move, hm, by rw [hn]⟩)⟩

theorem mem_reduces_of_action? {state rule : Nat} {t : Terminal}
    (h : action? state t = some (.reduce rule)) :
    ∃ row, rowAt state = some row ∧ ∃ ts, (ts, rule) ∈ row.reduces ∧ t ∈ ts := by
  rw [action?_eq, Option.bind_eq_some_iff] at h
  obtain ⟨row, hrow, h⟩ := h
  refine ⟨row, hrow, ?_⟩
  unfold Row.action? at h
  split at h
  · simp at h
  · obtain ⟨r, hfind, hr⟩ := Option.map_eq_some_iff.1 h
    cases hr
    exact ⟨r.1, List.mem_of_find?_eq_some hfind, by simpa using List.find?_some hfind⟩

/-- The last symbol before a state is the one on which the state was entered, and what stands
before it was read before the state that was left. -/
theorem past_of_next {p q : Nat} {s : GrammarSymbol} (h : next? p s = some q)
    (hq : q ≠ acceptState) : ∃ more, past q = s :: more ∧ more <+: past p := by
  obtain ⟨row, hrow, hm⟩ := mem_moves_of_next? h
  have hl := (keepsPast_of_row hrow).1 _ hm
  unfold leadsTo at hl
  split at hl
  · simp_all
  · rename_i s' more hp
    simp only [Bool.and_eq_true, decide_eq_true_eq, List.isPrefixOf_iff_prefix] at hl
    exact ⟨more, hl.1 ▸ hp, hl.2⟩

theorem eq_program_of_next {p : Nat} {s : GrammarSymbol} (h : next? p s = some acceptState) :
    s = .nonterminal .program := by
  obtain ⟨row, hrow, hm⟩ := mem_moves_of_next? h
  have hl := (keepsPast_of_row hrow).1 _ hm
  simp only [leadsTo, past_ends.2.1] at hl
  simpa using hl

/-- A state that reduces has just read the body of the rule. -/
theorem past_of_reduce {state rule : Nat} {t : Terminal}
    (h : action? state t = some (.reduce rule)) :
    ∃ r, Rule.all[rule]? = some r ∧ r.body.reverse <+: past state := by
  obtain ⟨row, hrow, ts, hr, -⟩ := mem_reduces_of_action? h
  have he := (keepsPast_of_row hrow).2 _ hr
  unfold endsWith at he
  rw [rules_getElem?]
  split at he
  · cases he
  · rename_i r hr
    exact ⟨r, hr, List.isPrefixOf_iff_prefix.1 he⟩

/-! ## Sets of terminals -/

def bit (t : Terminal) : Nat :=
  1 <<< t.ctorIdx

/-- A set of terminals as the bits of a number. -/
def mask (ts : List Terminal) : Nat :=
  ts.foldr (fun t m => bit t ||| m) 0

theorem testBit_bit (s t : Terminal) : (bit s).testBit t.ctorIdx = decide (s = t) := by
  have inj : s.ctorIdx = t.ctorIdx ↔ s = t := by
    refine ⟨fun h => ?_, fun h => h ▸ rfl⟩
    rw [← Terminal.ofNat_ctorIdx s, h, Terminal.ofNat_ctorIdx]
  rw [bit, Nat.one_shiftLeft, Nat.testBit_two_pow]
  exact decide_eq_decide.2 inj

theorem testBit_mask (ts : List Terminal) (t : Terminal) :
    (mask ts).testBit t.ctorIdx = decide (t ∈ ts) := by
  induction ts with
  | nil => simp [mask]
  | cons s ts ih =>
    rw [mask, List.foldr_cons, ← mask, Nat.testBit_or, testBit_bit, ih]
    simp [eq_comm]

theorem exists_of_testBit_mask {ts : List Terminal} {j : Nat} (h : (mask ts).testBit j = true) :
    ∃ t ∈ ts, t.ctorIdx = j := by
  induction ts with
  | nil => simp [mask] at h
  | cons s ts ih =>
    rw [mask, List.foldr_cons, ← mask, Nat.testBit_or, Bool.or_eq_true, bit, Nat.one_shiftLeft,
      Nat.testBit_two_pow, decide_eq_true_eq] at h
    obtain h | h := h
    · exact ⟨s, List.mem_cons_self, h⟩
    · obtain ⟨t, ht, hj⟩ := ih h
      exact ⟨t, List.mem_cons_of_mem s ht, hj⟩

theorem testBit_of_or_eq {a b n : Nat} (h : a ||| b = b) (ha : a.testBit n = true) :
    b.testBit n = true := by
  rw [← h, Nat.testBit_or, ha, Bool.true_or]

/-- The terminals for which a row has a move. -/
def Row.entries (row : Row) : List Terminal :=
  row.shifts.map Prod.fst ++ row.reduces.flatMap Prod.fst

theorem Row.isSome_action? (row : Row) (t : Terminal) :
    (row.action? t).isSome = decide (t ∈ row.entries) := by
  rw [Row.action?, Bool.eq_iff_iff, decide_eq_true_eq, entries, List.mem_append]
  cases h : row.shifts.find? (·.1 = t) with
  | some move =>
    have hm := List.mem_of_find?_eq_some h
    have ht : move.1 = t := by simpa using List.find?_some h
    exact ⟨fun _ => .inl (List.mem_map.2 ⟨move, hm, ht⟩), fun _ => rfl⟩
  | none =>
    have hs : ∀ x, (t, x) ∉ row.shifts := by
      intro x hx
      have := List.find?_eq_none.1 h _ hx
      simp at this
    simp [hs, List.find?_isSome]

/-- The terminals that a state accepts. -/
def acceptedAt (state : Nat) : Nat :=
  match rowAt state with
  | none => 0
  | some row => mask row.entries ||| if state = acceptState then bit .finish else 0

theorem accepts_eq_testBit (state : Nat) (t : Terminal) :
    accepts state t = (acceptedAt state).testBit t.ctorIdx := by
  rw [accepts, acceptedAt, action?_eq]
  cases h : rowAt state with
  | none =>
    have hne : state ≠ acceptState := by
      rintro rfl
      have := past_ends.2.2
      simp [h] at this
    simp [hne]
  | some row =>
    rw [Nat.testBit_or, testBit_mask, Option.bind_some, Row.isSome_action?]
    congr 1
    by_cases hs : state = acceptState
    · simp only [hs, if_true, testBit_bit, BEq.rfl, Bool.true_and]
      exact decide_eq_decide.2 eq_comm
    · simp [hs]

/-- The terminals before which a state reduces by a rule. -/
def reducedAt (state rule : Nat) : Nat :=
  match (rowAt state).map fun row => (row.shifts, row.reduces) with
  | some (shifts, [(ts, r)]) =>
    if r = rule then mask ts ^^^ (mask ts &&& mask (shifts.map Prod.fst)) else 0
  | _ => 0

theorem action?_of_reducedAt {state rule : Nat} {t : Terminal}
    (h : (reducedAt state rule).testBit t.ctorIdx = true) :
    action? state t = some (.reduce rule) := by
  rw [action?_eq]
  unfold reducedAt at h
  cases hrow : rowAt state with
  | none => simp [hrow] at h
  | some row =>
    rw [hrow, Option.map_some] at h
    split at h
    · rename_i shifts ts r heq
      simp only [Option.some.injEq, Prod.mk.injEq] at heq
      obtain ⟨rfl, hr⟩ := heq
      split_ifs at h with hrule
      · subst hrule
        simp only [Nat.testBit_xor, Nat.testBit_and, testBit_mask] at h
        have hin : t ∈ ts := by by_contra hn; simp [hn] at h
        have hout : row.shifts.find? (·.1 = t) = none := by
          rw [List.find?_eq_none]
          rintro ⟨s, x⟩ hx
          have : t ∉ row.shifts.map Prod.fst := by simpa [hin] using h
          simp only [decide_eq_true_eq]
          rintro rfl
          exact this (List.mem_map.2 ⟨_, hx, rfl⟩)
        simp [Row.action?, hout, hr, hin]
      · simp at h
    · simp at h

/-! ## Where a nonterminal leads on -/

def Row.next? (row : Row) : GrammarSymbol → Option Nat
  | .terminal t => (row.shifts.find? (·.1 = t)).map Prod.snd
  | .nonterminal n => row.goto? n

theorem next?_eq (state : Nat) (s : GrammarSymbol) :
    next? state s = (rowAt state).bind (·.next? s) := by
  cases s with
  | nonterminal n => exact goto?_eq state n
  | terminal t =>
    rw [next?, action?_eq]
    cases rowAt state with
    | none => rfl
    | some row =>
      simp only [Option.bind_some, Row.next?, Row.action?]
      cases row.shifts.find? (·.1 = t) with
      | some move => rfl
      | none =>
        rw [Option.map_none, Option.bind_eq_none_iff]
        intro a ha
        obtain ⟨r, -, rfl⟩ := Option.map_eq_some_iff.1 ha
        rfl

/-- `walk?`, by way of `rowAt`. -/
def walkRows? (state : Nat) : List GrammarSymbol → Option Nat
  | [] => some state
  | s :: rest => ((rowAt state).bind (·.next? s)).bind (walkRows? · rest)

theorem walk?_eq (state : Nat) (ss : List GrammarSymbol) : walk? state ss = walkRows? state ss := by
  induction ss generalizing state with
  | nil => rfl
  | cons s ss ih => simp only [walk?, walkRows?, next?_eq, ih]

/-- An `if` without `else` and a `do` without semicolon go on if that token follows. -/
def extension? (rule : Nat) : Option Terminal :=
  if rule = 32 then some .kwElse else if rule = 34 then some .semicolon else none

def rulesFor (n : Nonterminal) : List (Rule × Nat) :=
  Rule.all.toList.zipIdx.filter (·.1.head = n)

/-- Whether a rule leads on from one state, and reduces there before all that the state after its
head accepts. -/
def readyAfter (p q : Nat) (r : Rule × Nat) : Bool :=
  match walkRows? p r.1.body with
  | none => false
  | some k =>
    let reduced := reducedAt k r.2 ||| ((extension? r.2).map bit).getD 0
    acceptedAt q ||| reduced == reduced

def leadsOn (state : Nat) : Bool :=
  match rowAt state with
  | none => true
  | some row => row.gotos.all fun g => (rulesFor g.1).all (readyAfter state g.2)

set_option maxRecDepth 10000 in
theorem leadsOn_all : (List.range 373).all leadsOn = true := by decide +kernel

/-- Where a nonterminal leads from `p` to `q`, every rule for it can be read from `p`, and is then
reduced by before every token that `q` accepts. -/
theorem reduce_of_goto {p q i : Nat} {r : Rule} (hq : goto? p r.head = some q)
    (hr : Rule.all[i]? = some r) :
    ∃ k, walk? p r.body = some k ∧ ∀ t, accepts q t = true → extension? i ≠ some t →
      action? k t = some (.reduce i) := by
  rw [goto?_eq, Option.bind_eq_some_iff] at hq
  obtain ⟨row, hrow, hq⟩ := hq
  obtain ⟨g, hfind, rfl⟩ := Option.map_eq_some_iff.1 hq
  have hn : g.1 = r.head := by simpa using List.find?_some hfind
  have test := of_all_states leadsOn_all (by simp +contextual [leadsOn]) p
  simp only [leadsOn, hrow, List.all_eq_true] at test
  have hmem : (r, i) ∈ rulesFor g.1 := by
    refine List.mem_filter.2 ⟨List.mem_zipIdx_iff_getElem?.2 ?_, by simp [hn]⟩
    rw [Array.getElem?_toList]; exact hr
  have ready := test g (List.mem_of_find?_eq_some hfind) _ hmem
  unfold readyAfter at ready
  split at ready
  · cases ready
  · rename_i k hk
    refine ⟨k, by rw [walk?_eq, hk], fun t ht hext => ?_⟩
    rw [accepts_eq_testBit] at ht
    have hbit := testBit_of_or_eq (beq_iff_eq.1 ready) ht
    rw [Nat.testBit_or, Bool.or_eq_true] at hbit
    refine action?_of_reducedAt (hbit.resolve_right fun he => hext ?_)
    cases hx : extension? i with
    | none => simp [hx] at he
    | some s => simpa [hx, testBit_bit] using he

/-! ## Tokens that share their text -/

/-- The rules that end with the last brace of a function. -/
def endsFunction (rule : Nat) : Bool :=
  rule = 75 || rule = 76

def isSlash (t : Terminal) : Bool :=
  t = .slash || t = .slashEqual

def slashes : Nat :=
  bit .slash ||| bit .slashEqual

def keywordMask : Nat :=
  mask (Terminal.keywords.map Prod.fst)

/-- Whether a name that spells a keyword is a name here. -/
def takesAnyWord (state : Nat) : Bool :=
  accepts state .name && Terminal.keywords.all fun k => !accepts state k.1

theorem testBit_eq_false_of_and_eq {a b n : Nat} (h : a &&& b = 0) (ha : a.testBit n = true) :
    b.testBit n = false := by
  have := congrArg (Nat.testBit · n) h
  simpa [ha] using this

theorem accepts_keyword_eq_false {state : Nat} (h : acceptedAt state &&& keywordMask = 0)
    {k : Terminal × List String} (hk : k ∈ Terminal.keywords) : accepts state k.1 = false := by
  have hm : keywordMask.testBit k.1.ctorIdx = true := by
    rw [keywordMask, testBit_mask]
    simpa using ⟨k.2, hk⟩
  rw [Nat.and_comm] at h
  rw [accepts_eq_testBit]
  exact testBit_eq_false_of_and_eq h hm

/-- Whether a state tells a regular expression from a division, and a nonterminal never leads to a
state where only names are words. -/
def tellsApart (state : Nat) : Bool :=
  let accepted := acceptedAt state
  let reduced := reducedAt state 75 ||| reducedAt state 76
  (accepted &&& bit .regex == 0 || accepted &&& slashes ||| reduced == reduced) &&
    match rowAt state with
    | none => true
    | some row => row.gotos.all fun g =>
      (acceptedAt g.2 &&& bit .name == 0 || acceptedAt g.2 &&& keywordMask != 0) &&
        (g.1 != .propertyName && g.1 != .propertyKey || accepted &&& keywordMask == 0)

theorem tellsApart_all : (List.range 373).all tellsApart = true := by decide +kernel

theorem tellsApart_states (state : Nat) : tellsApart state = true :=
  of_all_states tellsApart_all (by simp +contextual [tellsApart, acceptedAt]) state

theorem endsFunction_of_accepts {state : Nat} {t : Terminal} (hr : accepts state .regex = true)
    (ht : accepts state t = true) (h : isSlash t = true) :
    ∃ rule, endsFunction rule = true ∧ action? state t = some (.reduce rule) := by
  have test := tellsApart_states state
  rw [tellsApart, Bool.and_eq_true, Bool.or_eq_true, beq_iff_eq, beq_iff_eq] at test
  rw [accepts_eq_testBit] at hr ht
  have hm : slashes.testBit t.ctorIdx = true := by
    rw [slashes, Nat.testBit_or, testBit_bit, testBit_bit]
    rw [isSlash, Bool.or_eq_true, decide_eq_true_eq, decide_eq_true_eq] at h
    rw [Bool.or_eq_true, decide_eq_true_eq, decide_eq_true_eq]
    exact h.imp Eq.symm Eq.symm
  obtain hno | hsub := test.1
  · have := testBit_eq_false_of_and_eq hno hr
    simp [testBit_bit] at this
  · have hred := testBit_of_or_eq hsub (n := t.ctorIdx) (by rw [Nat.testBit_and, ht, hm]; rfl)
    rw [Nat.testBit_or, Bool.or_eq_true] at hred
    obtain h75 | h76 := hred
    · exact ⟨75, rfl, action?_of_reducedAt h75⟩
    · exact ⟨76, rfl, action?_of_reducedAt h76⟩

theorem tellsApart_of_goto {p q : Nat} {n : Nonterminal} (h : goto? p n = some q) :
    (acceptedAt q &&& bit .name = 0 ∨ acceptedAt q &&& keywordMask ≠ 0) ∧
      ((n ≠ .propertyName ∧ n ≠ .propertyKey) ∨ acceptedAt p &&& keywordMask = 0) := by
  rw [goto?_eq, Option.bind_eq_some_iff] at h
  obtain ⟨row, hrow, h⟩ := h
  obtain ⟨g, hfind, rfl⟩ := Option.map_eq_some_iff.1 h
  have hn : g.1 = n := by simpa using List.find?_some hfind
  have test := tellsApart_states p
  rw [tellsApart, hrow, Bool.and_eq_true] at test
  have := List.all_eq_true.1 test.2 g (List.mem_of_find?_eq_some hfind)
  simpa [hn] using this

theorem takesAnyWord_of_goto {p q : Nat} {n : Nonterminal} (h : goto? p n = some q) :
    takesAnyWord q = false := by
  rw [← Bool.not_eq_true]
  intro hw
  rw [takesAnyWord, Bool.and_eq_true, List.all_eq_true] at hw
  obtain hno | hkw := (tellsApart_of_goto h).1
  · have hname := hw.1
    rw [accepts_eq_testBit] at hname
    have := testBit_eq_false_of_and_eq hno hname
    simp [testBit_bit] at this
  · refine hkw (Nat.eq_of_testBit_eq fun j => ?_)
    rw [Nat.testBit_and, Nat.zero_testBit, Bool.and_eq_false_iff]
    by_contra hboth
    simp only [not_or, Bool.not_eq_false] at hboth
    obtain ⟨t, ht, rfl⟩ := exists_of_testBit_mask hboth.2
    obtain ⟨k, hk, rfl⟩ := List.mem_map.1 ht
    have := hw.2 k hk
    rw [accepts_eq_testBit, hboth.1] at this
    cases this

theorem takesAnyWord_of_property {p q : Nat} {n : Nonterminal} (h : goto? p n = some q)
    (hn : n = .propertyName ∨ n = .propertyKey) (hname : accepts p .name = true) :
    takesAnyWord p = true := by
  have hkw : acceptedAt p &&& keywordMask = 0 :=
    (tellsApart_of_goto h).2.resolve_left (by rintro ⟨h1, h2⟩; exact hn.elim h1 h2)
  rw [takesAnyWord, hname, Bool.true_and, List.all_eq_true]
  intro k hk
  rw [accepts_keyword_eq_false hkw hk]
  rfl

end Debundle.Automaton
