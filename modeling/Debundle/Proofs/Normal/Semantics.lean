import Debundle.Proofs.Tree.Shape

/-!
# Meanings of programs

A semantics takes the meanings of the parts of a form to the meaning of the form. Expressions take
a state to a value or a thrown value; statements end normally or leave what is around them. A
semantics may be anything, nondeterministic included, as long as the operators of conditions, `if`,
`return`, blocks and bodies have the meanings that the language gives them.
-/
namespace Debundle

namespace Form

variable {α : Type}

/-- Literals, as they are read. -/
def isLiteral : Form α → Bool
  | string _ | number _ | regexp _ | null | boolean _ => true
  | _ => false

/-- Puts other statements into the body of a program, a function or a clause. -/
def withBody (body : List α) : Form α → Form α
  | program _ => program body
  | branch test _ => branch test body
  | tryBlock _ caught last => tryBlock body caught last
  | handler caught _ => handler caught body
  | finalizer _ => finalizer body
  | function kind name parameters _ => function kind name parameters body
  | form => form

theorem withBody_map {β : Type} (form : Form α) (body : List α) (f : α → β) :
    (form.withBody body).map f = (form.map f).withBody (body.map f) := by
  cases form <;> rfl

end Form

namespace BigStep

variable {State Value Declared Part : Type}

/-- What the evaluation of an expression ends with. -/
inductive Outcome (Value : Type) where
  | value (v : Value)
  | thrown (v : Value)

/-- How a statement ends. -/
inductive Completion (Value : Type) where
  | normal
  | returned (v : Value)
  | threw (v : Value)
  | broke (label : Option String)
  | continued (label : Option String)

/-- The outcomes and final states that an expression can have from a state. -/
abbrev Evaluation (State Value : Type) :=
  State → Outcome Value → State → Prop

/-- The endings and final states that a statement can have from a state. -/
abbrev Execution (State Value : Type) :=
  State → Completion Value → State → Prop

namespace Execution

/-- Ends at once. -/
def done (c : Completion Value) : Execution State Value :=
  fun σ d τ => d = c ∧ τ = σ

/-- One after the other, if the first ends normally. -/
def next (s t : Execution State Value) : Execution State Value :=
  fun σ c τ => (∃ ρ, s σ .normal ρ ∧ t ρ c τ) ∨ (s σ c τ ∧ c ≠ .normal)

@[simp] theorem done_next (s : Execution State Value) : (done .normal).next s = s := by
  funext σ c τ
  refine propext ⟨?_, fun h => .inl ⟨σ, ⟨rfl, rfl⟩, h⟩⟩
  rintro (⟨ρ, ⟨-, rfl⟩, h⟩ | ⟨⟨hc, -⟩, hn⟩)
  · exact h
  · exact absurd hc hn

@[simp] theorem next_done (s : Execution State Value) : s.next (done .normal) = s := by
  funext σ c τ
  refine propext ⟨?_, fun h => ?_⟩
  · rintro (⟨ρ, h, rfl, rfl⟩ | ⟨h, -⟩)
    · exact h
    · exact h
  · by_cases hc : c = .normal
    · exact .inl ⟨τ, hc ▸ h, hc, rfl⟩
    · exact .inr ⟨h, hc⟩

theorem next_assoc (s t u : Execution State Value) : (s.next t).next u = s.next (t.next u) := by
  funext σ c τ
  refine propext ⟨?_, ?_⟩
  · rintro (⟨ρ, ⟨π, hs, ht⟩ | ⟨-, hn⟩, hu⟩ | ⟨⟨π, hs, ht⟩ | ⟨hs, -⟩, hn⟩)
    · exact .inl ⟨π, hs, .inl ⟨ρ, ht, hu⟩⟩
    · exact absurd rfl hn
    · exact .inl ⟨π, hs, .inr ⟨ht, hn⟩⟩
    · exact .inr ⟨hs, hn⟩
  · rintro (⟨π, hs, ⟨ρ, ht, hu⟩ | ⟨ht, hn⟩⟩ | ⟨hs, hn⟩)
    · exact .inl ⟨ρ, .inl ⟨π, hs, ht⟩, hu⟩
    · exact .inr ⟨.inl ⟨π, hs, ht⟩, hn⟩
    · exact .inr ⟨.inr ⟨hs, hn⟩, hn⟩

end Execution

namespace Evaluation

/-- Gives a value at once. -/
def pure (v : Value) : Evaluation State Value :=
  fun σ o τ => o = .value v ∧ τ = σ

/-- Goes on with the value of an expression. -/
def bind (e : Evaluation State Value) (k : Value → Evaluation State Value) :
    Evaluation State Value :=
  fun σ o τ => (∃ v ρ, e σ (.value v) ρ ∧ k v ρ o τ) ∨ ∃ v, e σ (.thrown v) τ ∧ o = .thrown v

/-- Goes on as a statement with the value of an expression. -/
def exec (e : Evaluation State Value) (k : Value → Execution State Value) :
    Execution State Value :=
  fun σ c τ => (∃ v ρ, e σ (.value v) ρ ∧ k v ρ c τ) ∨ ∃ v, e σ (.thrown v) τ ∧ c = .threw v

@[simp] theorem exec_pure (v : Value) (k : Value → Execution State Value) :
    exec (pure v) k = k v := by
  funext σ c τ
  refine propext ⟨?_, fun h => .inl ⟨v, σ, ⟨rfl, rfl⟩, h⟩⟩
  rintro (⟨w, ρ, ⟨hw, rfl⟩, h⟩ | ⟨w, ⟨hw, -⟩, -⟩)
  · cases hw
    exact h
  · cases hw

theorem exec_ite (b : Bool) (e f : Evaluation State Value) (k : Value → Execution State Value) :
    exec (if b then e else f) k = if b then e.exec k else f.exec k := by
  cases b <;> rfl

theorem exec_bind (e : Evaluation State Value) (k : Value → Evaluation State Value)
    (j : Value → Execution State Value) :
    exec (e.bind k) j = e.exec fun v => (k v).exec j := by
  funext σ c τ
  refine propext ⟨?_, ?_⟩
  · rintro (⟨w, ρ, ⟨v, π, he, hk⟩ | ⟨v, -, ⟨⟩⟩, hj⟩ | ⟨w, ⟨v, π, he, hk⟩ | ⟨v, he, ⟨⟩⟩, hc⟩)
    · exact .inl ⟨v, π, he, .inl ⟨w, ρ, hk, hj⟩⟩
    · exact .inl ⟨v, π, he, .inr ⟨w, hk, hc⟩⟩
    · exact .inr ⟨w, he, hc⟩
  · rintro (⟨v, π, he, ⟨w, ρ, hk, hj⟩ | ⟨w, hk, hc⟩⟩ | ⟨v, he, hc⟩)
    · exact .inl ⟨w, ρ, .inl ⟨v, π, he, hk⟩, hj⟩
    · exact .inr ⟨w, .inl ⟨v, π, he, hk⟩, hc⟩
    · exact .inr ⟨v, .inr ⟨v, he, rfl⟩, hc⟩

theorem exec_next (e : Evaluation State Value) (k : Value → Execution State Value)
    (s : Execution State Value) : (e.exec k).next s = e.exec fun v => (k v).next s := by
  funext σ c τ
  refine propext ⟨?_, ?_⟩
  · rintro (⟨ρ, ⟨v, π, he, hk⟩ | ⟨v, -, ⟨⟩⟩, hs⟩ | ⟨⟨v, π, he, hk⟩ | ⟨v, he, hc⟩, hn⟩)
    · exact .inl ⟨v, π, he, .inl ⟨ρ, hk, hs⟩⟩
    · exact .inl ⟨v, π, he, .inr ⟨hk, hn⟩⟩
    · exact .inr ⟨v, he, hc⟩
  · rintro (⟨v, π, he, ⟨ρ, hk, hs⟩ | ⟨hk, hn⟩⟩ | ⟨v, he, hc⟩)
    · exact .inl ⟨ρ, .inl ⟨v, π, he, hk⟩, hs⟩
    · exact .inr ⟨.inl ⟨v, π, he, hk⟩, hn⟩
    · exact .inr ⟨.inr ⟨v, he, hc⟩, hc ▸ nofun⟩

end Evaluation

/-- The meaning of a statement: how it runs under labels, and what it declares in the function
around it. -/
@[ext] structure Action (State Value Declared : Type) where
  run : List String → Execution State Value
  declares : List Declared

namespace Action

open Execution

/-- A statement to which labels are of no use, and that declares nothing. -/
def plain (s : Execution State Value) : Action State Value Declared :=
  ⟨fun _ => s, []⟩

/-- Statements one after the other. -/
def all (ss : List (Action State Value Declared)) : Action State Value Declared :=
  ⟨fun _ => (ss.map fun s => s.run []).foldr next (done .normal), ss.flatMap declares⟩

@[simp] theorem all_plain (s : Execution State Value) :
    all [plain s] = (plain s : Action State Value Declared) := by
  simp [all, plain]

theorem all_append (ss ts : List (Action State Value Declared)) :
    all (ss ++ ts) = ⟨fun _ => ((all ss).run []).next ((all ts).run []),
      (all ss).declares ++ (all ts).declares⟩ := by
  refine Action.ext ?_ List.flatMap_append
  funext _
  induction ss with
  | nil => simp [all]
  | cons s ss ih =>
    simp only [all, List.cons_append, List.map_cons, List.foldr_cons, next_assoc] at ih ⊢
    rw [ih]

@[simp] theorem all_all (ss : List (Action State Value Declared)) : all [all ss] = all ss := by
  simp [all]

theorem run_of_all_eq {s t : Action State Value Declared} (h : all [s] = all [t]) :
    s.run [] = t.run [] ∧ s.declares = t.declares := by
  have hrun := congrFun (congrArg Action.run h) []
  have hdeclares := congrArg Action.declares h
  simp only [all, List.map_cons, List.map_nil, List.foldr_cons, List.foldr_nil, next_done,
    List.flatMap_singleton] at hrun hdeclares
  exact ⟨hrun, hdeclares⟩

theorem all_append_congr {ss ss' ts ts' : List (Action State Value Declared)}
    (hs : all ss = all ss') (ht : all ts = all ts') : all (ss ++ ts) = all (ss' ++ ts') := by
  rw [all_append, all_append, hs, ht]

theorem all_flatMap {α : Type} (f : α → List (Action State Value Declared))
    (g : α → Action State Value Declared) (as : List α)
    (h : ∀ a ∈ as, all (f a) = all [g a]) : all (as.flatMap f) = all (as.map g) := by
  induction as with
  | nil => rfl
  | cons a as ih =>
    rw [List.forall_mem_cons] at h
    rw [List.flatMap_cons, List.map_cons, all_append, h.1, ih h.2, ← all_append]
    rfl

end Action

/-- The meaning of a node. -/
inductive Meaning (State Value Declared Part : Type) where
  | expression (e : Evaluation State Value)
  | statement (s : Action State Value Declared)
  /-- Of names, definitions, properties, clauses and the like. -/
  | part (p : Part)

/-- How a node acts as a statement. -/
def Meaning.action : Meaning State Value Declared Part → Action State Value Declared
  | statement s => s
  | _ => .plain (Execution.done .normal)

open Evaluation Execution in
/-- A big-step semantics. Whatever its laws do not mention may mean anything. -/
structure Semantics (State Value Declared Part : Type) where
  truthy : Value → Bool
  ofBool : Bool → Value
  undefined : Value
  /-- The meaning of a form from the meanings of its parts. -/
  step : Form (Meaning State Value Declared Part) → Meaning State Value Declared Part
  truthy_ofBool : ∀ b, truthy (ofBool b) = b
  expression_of_isExpression : ∀ form, form.isExpression = true → ∃ e, step form = .expression e
  statement_of_isBodyStatement : ∀ form, form.isBodyStatement = true → ∃ s, step form = .statement s
  statement_of_program : ∀ body, ∃ s, step (.program body) = .statement s
  and_law : ∀ a b, step (.binary "&&" (.expression a) (.expression b)) =
    .expression (a.bind fun v => if truthy v then b else pure v)
  or_law : ∀ a b, step (.binary "||" (.expression a) (.expression b)) =
    .expression (a.bind fun v => if truthy v then pure v else b)
  conditional_law : ∀ a b c, step (.conditional (.expression a) (.expression b) (.expression c)) =
    .expression (a.bind fun v => if truthy v then b else c)
  not_law : ∀ a, step (.unary "!" (.expression a)) =
    .expression (a.bind fun v => pure (ofBool !truthy v))
  void_law : ∀ a, step (.unary "void" (.expression a)) =
    .expression (a.bind fun _ => pure undefined)
  literal_law : ∀ form, form.isLiteral = true → ∃ v, step form = .expression (pure v)
  /-- The name `undefined`, where nothing in the program declares it. -/
  undefined_law : ∀ shown, step (.symbol ⟨.reference, "undefined", some .free, shown⟩) =
    .expression (pure undefined)
  simple_law : ∀ e, step (.simple (.expression e)) =
    .statement (.plain (e.exec fun _ => done .normal))
  return_law : ∀ e, step (.exit .returning (some (.expression e))) =
    .statement (.plain (e.exec fun v => done (.returned v)))
  bareReturn_law : step (.exit .returning none) = .statement (.plain (done (.returned undefined)))
  if_law : ∀ e s, step (.ifElse (.expression e) (.statement s) none) =
    .statement ⟨fun _ => e.exec fun v => if truthy v then s.run [] else done .normal, s.declares⟩
  ifElse_law : ∀ e s t, step (.ifElse (.expression e) (.statement s) (some (.statement t))) =
    .statement ⟨fun _ => e.exec fun v => if truthy v then s.run [] else t.run [],
      s.declares ++ t.declares⟩
  block_law : ∀ ss : List (Action State Value Declared),
    step (.block (ss.map .statement)) = .statement (.all ss)
  /-- A body matters by what its statements do one after the other. -/
  body_law : ∀ (form : Form (Meaning State Value Declared Part))
    (ss ts : List (Action State Value Declared)), Action.all ss = .all ts →
    step (form.withBody (ss.map .statement)) = step (form.withBody (ts.map .statement))

namespace Semantics

variable (S : Semantics State Value Declared Part)

/-- The meaning of a tree. -/
def meaning : Node → Meaning State Value Declared Part :=
  Node.foldUp fun _ form => S.step (form.map Prod.snd)

theorem meaning_mk (line : Option Nat) (form : Form Node) :
    S.meaning (.mk line form) = S.step (form.map S.meaning) := by
  rw [meaning, Node.foldUp_mk, Form.map_map]

/-- How a tree acts as a statement. -/
def act (n : Node) : Action State Value Declared :=
  (S.meaning n).action

/-- A program, run from a state, can end so in another state. -/
def Runs (t : Node) (σ : State) (c : Completion Value) (τ : State) : Prop :=
  ∃ s, S.meaning t = .statement s ∧ s.run [] σ c τ

variable {S} {P : Form Node → Prop} {n : Node}

theorem meaning_expression (h : Shaped P .expression n) : ∃ e, S.meaning n = .expression e := by
  obtain ⟨line, form⟩ := n
  rw [meaning_mk]
  exact S.expression_of_isExpression _ ((Form.isExpression_map form _).trans h.fits)

theorem meaning_statement (h : Shaped P .statement n) :
    S.meaning n = .statement (S.act n) := by
  obtain ⟨line, form⟩ := n
  obtain ⟨s, hs⟩ := S.statement_of_isBodyStatement (form.map S.meaning)
    ((Form.isBodyStatement_map form _).trans h.fits)
  rw [act, meaning_mk, hs]
  rfl

theorem map_meaning {body : List Node} (h : ∀ n ∈ body, Shaped P .statement n) :
    body.map S.meaning = (body.map S.act).map .statement := by
  rw [List.map_map]
  exact List.map_congr_left fun n hn => meaning_statement (h n hn)

end Semantics

end BigStep

end Debundle
