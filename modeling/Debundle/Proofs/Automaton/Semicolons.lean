import Debundle.Proofs.Automaton.Regular

/-!
# Semicolons in the table

What a semicolon does to the automaton. It completes a statement, or a part of the head of a `for`
(`closesStatement_or`). Once a statement is complete, one more semicolon is an empty statement, after
which no token has a place that had none before (`refused_cases`). Of the classes that may follow a
semicolon, few read the same text, and where the one is reduced on, the other has a place as well
(`accepts_of_rivals`).
-/
namespace Debundle.Automaton

/-- What ends where a statement ends. -/
def endsStatement (n : Nonterminal) : Bool :=
  n ∈ [.program, .statement, .statements, .varStatement, .emptyStatement, .expressionStatement,
    .ifStatement, .doStatement, .whileStatement, .forStatement, .forInStatement, .forInVarStatement,
    .continueStatement, .breakStatement, .returnStatement, .withStatement, .labeledStatement,
    .throwStatement, .debuggerStatement, .caseClause, .defaultClause, .clauses]

/-- What is an operand once it is complete, so that an operator may stand after it. -/
def completesOperand (n : Nonterminal) : Bool :=
  n ∈ [.updateOperator, .update, .updateLead, .unary, .unaryLead, .operations]

/-- The classes of tokens that may follow a semicolon. -/
def followers : List Terminal :=
  [.kwVar, .kwIf, .kwElse, .kwDo, .kwWhile, .kwFor, .kwContinue, .kwBreak, .kwReturn, .kwWith,
   .kwSwitch, .kwCase, .kwDefault, .kwThrow, .kwTry, .kwDebugger, .kwFunction, .kwNew, .kwThis,
   .kwNull, .kwTrue, .kwFalse, .kwDelete, .kwVoid, .kwTypeof, .regex, .string, .number, .name,
   .plusPlus, .minusMinus, .bang, .lbrace, .lparen, .lbracket, .minus, .plus, .rbrace, .rparen,
   .semicolon, .tilde, .finish]

/-- Of the classes that may follow a semicolon, those that are tried before one of them and may read
the same text. -/
def rivals : Terminal → List Terminal
  | .name => Terminal.keywords.map Prod.fst
  | .plus => [.plusPlus]
  | .minus => [.minusMinus]
  | _ => []

def isUpdate (t : Terminal) : Bool :=
  t = .plusPlus || t = .minusMinus

def isSign (t : Terminal) : Bool :=
  t = .plus || t = .minus

/-- Whether the head of a rule is among some nonterminals. -/
def headIs (among : Nonterminal → Bool) (rule : Nat) : Bool :=
  Rule.all[rule]?.any fun r => among r.head

/-- Whether a state reduces on all that may follow a statement, and only by a rule for one. -/
def closesStatement (state : Nat) : Bool :=
  (rowAt state).any (fun row =>
    row.shifts.isEmpty && row.reduces.all fun r => headIs endsStatement r.2) &&
    acceptedAt state &&& acceptedAt 26 == acceptedAt 26

/-- Whether a terminal that was refused after a statement is refused after one more semicolon. -/
def staysRefused (state : Nat) (t : Terminal) : Bool :=
  (moveAt state t).isSome || (moveAt 26 t).isNone ||
    match moveAt state .semicolon with
    | none => true
    | some (.shift _) => lists state t
    | some (.reduce rule) => t = .kwElse && headIs (· = .statements) rule

/-- What holds in a state that was entered after a statement. -/
def restsAfter (move : Nonterminal × Nat) : Bool :=
  !endsStatement move.1 ||
    ((rowAt move.2).all fun row => row.reduces.all fun r => headIs endsStatement r.2) &&
    (match moveAt move.2 .semicolon with
      | some (.shift next) => next = 26
      | _ => true) &&
    terminals.all (staysRefused move.2) &&
    (move.1 != .statements || (moveAt move.2 .kwElse).isNone)

/-- An operator has a place in a state that was entered after an operand, or completes another
operand. -/
def takesSigns (state : Nat) : Bool :=
  [Terminal.plus, .minus].all fun t =>
    match moveAt state t with
    | none => false
    | some (.shift _) => true
    | some (.reduce rule) => headIs completesOperand rule

/-- The rivals of a terminal that a state reduces on have a place there, if a semicolon has one. -/
def admitsRivals (state : Nat) (t : Terminal) : Bool :=
  match moveAt state t with
  | some (.reduce _) => (rivals t).all fun x => x ∉ followers || (moveAt state x).isSome
  | _ => true

/-- What holds after a shift. -/
def settlesAfter (move : Terminal × Nat) : Bool :=
  (move.1 != .semicolon ||
    (acceptedAt move.2 ||| mask followers == mask followers) &&
      (closesStatement move.2 || [Terminal.plusPlus, .minusMinus].all fun t =>
        match moveAt move.2 t with
        | some (.shift _) => true
        | _ => false)) &&
  (!(move.1 ∈ [.kwReturn, .kwBreak, .kwContinue] : Bool) ||
    (match moveAt move.2 .semicolon with
      | some (.shift next) => closesStatement next
      | _ => false) &&
    [Terminal.plus, .minus].all fun t =>
      (moveAt move.2 t).isNone || (rivals t).all fun x => (moveAt move.2 x).isSome) &&
  ((moveAt move.2 .semicolon).isNone ||
    admitsRivals move.2 .name &&
      if isUpdate move.1 then takesSigns move.2
      else admitsRivals move.2 .plus && admitsRivals move.2 .minus)

def settles (state : Nat) : Bool :=
  (rowAt state).all fun row => row.gotos.all (fun g => restsAfter g &&
    (!completesOperand g.1 || takesSigns g.2)) && row.shifts.all settlesAfter

set_option maxRecDepth 10000 in
theorem settles_all : (List.range 373).all settles = true := by decide +kernel

theorem settles_states (state : Nat) : settles state = true :=
  of_all_states settles_all (by simp +contextual [settles]) state

theorem mem_gotos_of_goto? {p q : Nat} {n : Nonterminal} (h : goto? p n = some q) :
    ∃ row, rowAt p = some row ∧ (n, q) ∈ row.gotos := by
  rw [goto?_eq, Option.bind_eq_some_iff] at h
  obtain ⟨row, hrow, h⟩ := h
  obtain ⟨g, hfind, rfl⟩ := Option.map_eq_some_iff.1 h
  have hn : g.1 = n := by simpa using List.find?_some hfind
  exact ⟨row, hrow, hn ▸ List.mem_of_find?_eq_some hfind⟩

theorem mem_shifts_of_action? {p q : Nat} {t : Terminal} (h : action? p t = some (.shift q)) :
    ∃ row, rowAt p = some row ∧ (t, q) ∈ row.shifts := by
  obtain ⟨row, hrow, hm⟩ := mem_moves_of_next? (next?_terminal.2 h)
  exact ⟨row, hrow, by simpa [Row.moves] using hm⟩

theorem settles_of_goto {p q : Nat} {n : Nonterminal} (h : goto? p n = some q) :
    restsAfter (n, q) = true ∧ (completesOperand n = true → takesSigns q = true) := by
  obtain ⟨row, hrow, hm⟩ := mem_gotos_of_goto? h
  have test := settles_states p
  rw [settles, hrow, Option.all_some, Bool.and_eq_true, List.all_eq_true] at test
  have := test.1 _ hm
  rw [Bool.and_eq_true, Bool.or_eq_true, Bool.not_eq_true'] at this
  exact ⟨this.1, fun hn => this.2.resolve_left (by simp [hn])⟩

theorem settles_of_shift {p q : Nat} {t : Terminal} (h : action? p t = some (.shift q)) :
    settlesAfter (t, q) = true := by
  obtain ⟨row, hrow, hm⟩ := mem_shifts_of_action? h
  have test := settles_states p
  rw [settles, hrow, Option.all_some, Bool.and_eq_true, List.all_eq_true, List.all_eq_true] at test
  exact test.2 _ hm

theorem head_of_headIs {among : Nonterminal → Bool} {i : Nat} {r : Rule}
    (h : headIs among i = true) (hr : Rule.all[i]? = some r) : among r.head = true := by
  simp only [headIs, hr, Option.any_some] at h
  exact h

theorem action?_ne_none_of_accepts {q : Nat} {t : Terminal} (h : accepts q t = true)
    (ht : t ≠ .finish) : action? q t ≠ none := by
  intro hnone
  simp [accepts, hnone, ht] at h

/-! ## After a statement -/

section

variable {p q i : Nat} {n : Nonterminal} {t : Terminal}

theorem endsStatement_of_reduce (h : goto? p n = some q) (hn : endsStatement n = true)
    (ha : action? q t = some (.reduce i)) : headIs endsStatement i = true := by
  have test := (settles_of_goto h).1
  obtain ⟨row, hrow, ts, hmem, -⟩ := mem_reduces_of_action? ha
  simp only [restsAfter, hn, Bool.not_true, Bool.false_or, Bool.and_eq_true, hrow, Option.all_some,
    List.all_eq_true, Prod.forall] at test
  exact test.1.1.1 ts i hmem

theorem eq_of_shift_semicolon {x : Nat} (h : goto? p n = some q) (hn : endsStatement n = true)
    (ha : action? q .semicolon = some (.shift x)) : x = 26 := by
  have test := (settles_of_goto h).1
  rw [action?_eq_moveAt] at ha
  simp only [restsAfter, hn, Bool.not_true, Bool.false_or, Bool.and_eq_true, ha,
    decide_eq_true_eq] at test
  exact test.1.1.2

theorem staysRefused_of_goto (h : goto? p n = some q) (hn : endsStatement n = true)
    (t : Terminal) : staysRefused q t = true := by
  have test := (settles_of_goto h).1
  simp only [restsAfter, hn, Bool.not_true, Bool.false_or, Bool.and_eq_true,
    List.all_eq_true] at test
  exact test.1.2 t (mem_terminals t)

theorem action?_kwElse_of_statements (h : goto? p .statements = some q) :
    action? q .kwElse = none := by
  have test := (settles_of_goto h).1
  rw [action?_eq_moveAt]
  simp only [restsAfter, show endsStatement .statements = true from rfl, Bool.not_true,
    Bool.false_or, Bool.and_eq_true, bne_self_eq_false, Option.isNone_iff_eq_none] at test
  exact test.2

/-- A terminal that was refused after a statement, and would be accepted after an empty one. -/
theorem refused_cases (h : goto? p n = some q) (hn : endsStatement n = true)
    (ha : action? q t = none) (h26 : action? 26 t ≠ none) :
    action? q .semicolon = none ∨
      (action? q .semicolon = some (.shift 26) ∧ lists q t = true) ∨
      ∃ i, action? q .semicolon = some (.reduce i) ∧ t = .kwElse ∧
        headIs (· = .statements) i = true := by
  have test := staysRefused_of_goto h hn t
  have hsemi : ∀ x, action? q .semicolon = some (.shift x) → x = 26 :=
    fun x hx => eq_of_shift_semicolon h hn hx
  rw [action?_eq_moveAt] at ha h26
  simp only [action?_eq_moveAt] at hsemi ⊢
  rw [staysRefused, ha, Option.isSome_none, Bool.false_or, Bool.or_eq_true,
    Option.isNone_iff_eq_none] at test
  have := test.resolve_left h26
  cases hmove : moveAt q .semicolon with
  | none => exact .inl rfl
  | some move =>
    rw [hmove] at this hsemi
    cases move with
    | shift x => exact .inr (.inl ⟨by rw [hsemi x rfl], this⟩)
    | reduce i =>
      simp only [Bool.and_eq_true, decide_eq_true_eq] at this
      exact .inr (.inr ⟨i, rfl, this⟩)

end

/-! ## After a semicolon -/

theorem mem_followers {p q : Nat} {t : Terminal} (h : action? p .semicolon = some (.shift q))
    (ht : accepts q t = true) : t ∈ followers := by
  have test := settles_of_shift h
  simp only [settlesAfter, bne_self_eq_false, Bool.false_or, Bool.and_eq_true, beq_iff_eq] at test
  have hbit := testBit_of_or_eq test.1.1.1 (accepts_eq_testBit q t ▸ ht)
  rw [testBit_mask] at hbit
  exact of_decide_eq_true hbit

theorem closesStatement_or {p q : Nat} (h : action? p .semicolon = some (.shift q)) :
    closesStatement q = true ∨
      ∀ t, isUpdate t = true → ∃ x, action? q t = some (.shift x) := by
  have test := settles_of_shift h
  simp only [settlesAfter, bne_self_eq_false, Bool.false_or, Bool.and_eq_true, Bool.or_eq_true,
    List.all_eq_true] at test
  refine test.1.1.2.imp id fun hall t ht => ?_
  have hmem : t ∈ [Terminal.plusPlus, .minusMinus] := by simpa [isUpdate] using ht
  have := hall t hmem
  rw [action?_eq_moveAt]
  cases hmove : moveAt q t with
  | none => rw [hmove] at this; cases this
  | some move =>
    cases move with
    | shift x => exact ⟨x, rfl⟩
    | reduce i => rw [hmove] at this; cases this

theorem closesStatement_of_restricted {p q : Nat} {t : Terminal}
    (h : action? p t = some (.shift q)) (ht : t ∈ [Terminal.kwReturn, .kwBreak, .kwContinue]) :
    ∃ x, action? q .semicolon = some (.shift x) ∧ closesStatement x = true := by
  have test := settles_of_shift h
  simp only [settlesAfter, Bool.and_eq_true, decide_eq_true ht, Bool.not_true, Bool.false_or] at test
  have := test.1.2.1
  rw [action?_eq_moveAt]
  cases hmove : moveAt q .semicolon with
  | none => rw [hmove] at this; cases this
  | some move =>
    cases move with
    | shift x => rw [hmove] at this; exact ⟨x, rfl, this⟩
    | reduce i => rw [hmove] at this; cases this

theorem accepts_of_restricted {p q : Nat} {t u x : Terminal} (h : action? p t = some (.shift q))
    (ht : t ∈ [Terminal.kwReturn, .kwBreak, .kwContinue]) (hu : isSign u = true)
    (hmove : action? q u ≠ none) (hx : x ∈ rivals u) : accepts q x = true := by
  have test := settles_of_shift h
  simp only [settlesAfter, Bool.and_eq_true, decide_eq_true ht, Bool.not_true, Bool.false_or,
    List.all_eq_true, Bool.or_eq_true, Option.isNone_iff_eq_none] at test
  have hmem : u ∈ [Terminal.plus, .minus] := by simpa [isSign] using hu
  rw [action?_eq_moveAt] at hmove
  have := (test.1.2.2 u hmem).resolve_left hmove x hx
  rw [accepts, action?_eq_moveAt, this, Bool.true_or]

theorem shift_of_first {t : Terminal} {a : Action} (h : action? 0 t = some a) (ht : t ≠ .finish) :
    ∃ q, a = .shift q := by
  have test : (rowAt 0).all (fun row => row.reduces.all fun r => r.1 = [.finish]) = true := by
    decide +kernel
  cases a with
  | shift q => exact ⟨q, rfl⟩
  | reduce i =>
    obtain ⟨row, hrow, ts, hmem, htm⟩ := mem_reduces_of_action? h
    rw [hrow, Option.all_some, List.all_eq_true] at test
    have := of_decide_eq_true (test _ hmem)
    simp only at this
    rw [this, List.mem_singleton] at htm
    exact absurd htm ht

theorem reduce_of_closesStatement {q : Nat} {t : Terminal} {a : Action}
    (h : closesStatement q = true) (ha : action? q t = some a) :
    ∃ i, a = .reduce i ∧ headIs endsStatement i = true := by
  rw [closesStatement, Bool.and_eq_true] at h
  obtain ⟨row, hrow, hall⟩ := (Option.any_eq_true _ _).1 h.1
  rw [Bool.and_eq_true, List.isEmpty_iff, List.all_eq_true] at hall
  rw [action?_eq, hrow, Option.bind_some, Row.action?, hall.1, List.find?_nil] at ha
  obtain ⟨r, hr, rfl⟩ := Option.map_eq_some_iff.1 ha
  exact ⟨r.2, rfl, hall.2 r (List.mem_of_find?_eq_some hr)⟩

theorem accepts_of_closesStatement {q : Nat} {t : Terminal} (h : closesStatement q = true)
    (ht : accepts 26 t = true) : accepts q t = true := by
  rw [closesStatement, Bool.and_eq_true, beq_iff_eq] at h
  rw [accepts_eq_testBit] at ht ⊢
  have := congrArg (Nat.testBit · t.ctorIdx) h.2
  simpa [ht] using this

/-! ## Classes that read the same text -/

/-- Where a state reduces on a class and on semicolons, the rivals of the class that may follow a
semicolon have a place, except for signs after `++` and `--`. -/
theorem accepts_of_rivals {p q i : Nat} {t u x : Terminal} (h : action? p t = some (.shift q))
    (hs : action? q .semicolon ≠ none) (hu : action? q u = some (.reduce i)) (hx : x ∈ rivals u)
    (hf : x ∈ followers) : accepts q x = true ∨ isUpdate t = true ∧ isSign u = true := by
  have test := settles_of_shift h
  rw [action?_eq_moveAt] at hs hu
  simp only [settlesAfter, Bool.and_eq_true, Bool.or_eq_true, Option.isNone_iff_eq_none, hs,
    false_or] at test
  have admits : ∀ {u : Terminal}, admitsRivals q u = true → moveAt q u = some (.reduce i) →
      x ∈ rivals u → accepts q x = true := by
    intro u hadmit hmove hx
    rw [admitsRivals, hmove] at hadmit
    have := List.all_eq_true.1 hadmit x hx
    simp only [hf, not_true_eq_false, decide_false, Bool.false_or] at this
    rw [accepts, action?_eq_moveAt, this, Bool.true_or]
  by_cases hup : isUpdate t = true
  · by_cases hsign : isSign u = true
    · exact .inr ⟨hup, hsign⟩
    · cases u with
      | name => exact .inl (admits test.2.1 hu hx)
      | plus | minus => exact absurd rfl hsign
      | _ => cases hx
  · simp only [hup, Bool.false_eq_true, if_false, Bool.and_eq_true] at test
    cases u with
    | name => exact .inl (admits test.2.1 hu hx)
    | plus => exact .inl (admits test.2.2.1 hu hx)
    | minus => exact .inl (admits test.2.2.2 hu hx)
    | _ => cases hx

theorem takesSigns_of_shift {p q : Nat} {t : Terminal} (h : action? p t = some (.shift q))
    (ht : isUpdate t = true) (hs : action? q .semicolon ≠ none) : takesSigns q = true := by
  have test := settles_of_shift h
  rw [action?_eq_moveAt] at hs
  simp only [settlesAfter, Bool.and_eq_true, Bool.or_eq_true, Option.isNone_iff_eq_none, hs,
    false_or, ht, if_true] at test
  exact test.2.2

theorem takesSigns_cases {q : Nat} {t : Terminal} (h : takesSigns q = true) (ht : isSign t = true) :
    (∃ x, action? q t = some (.shift x)) ∨
      ∃ i, action? q t = some (.reduce i) ∧ headIs completesOperand i = true := by
  have hmem : t ∈ [Terminal.plus, .minus] := by simpa [isSign] using ht
  have := List.all_eq_true.1 h t hmem
  rw [action?_eq_moveAt]
  cases hmove : moveAt q t with
  | none => rw [hmove] at this; cases this
  | some move =>
    cases move with
    | shift x => exact .inl ⟨x, rfl⟩
    | reduce i => rw [hmove] at this; exact .inr ⟨i, rfl, this⟩

end Debundle.Automaton
