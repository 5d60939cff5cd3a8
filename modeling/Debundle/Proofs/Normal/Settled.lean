import Debundle.Proofs.Normal.Conditionals

/-!
# Programs without operator statements

A program and its normal form under the rules for conditionals have the same runs, and none of the
statements that the rules rewrite is left anywhere (`runs_normalize_conditionals`).
-/
namespace Debundle

namespace Normal

variable {c : Category} {n : Node}

theorem eq_statement_of_returnsVoid (h : ResolvedAs c n) (hv : n.form.returnsVoid = true) :
    c = .statement :=
  category_of_returnsVoid h.tidy hv

theorem settled_normalizeUpTo {fuel : Nat} (h : ResolvedAs c n) (hw : n.weight ≤ fuel)
    (hv : n.form.returnsVoid = false) :
    ∀ m ∈ (normalizeUpTo ⟨false, false, true⟩ fuel n).preorder, m.form.isRewritable = false :=
  fun m hm => (atRest_normalizeUpTo_of_sequences stable_isResolved names_isResolved h.tidy hw
    (fun _ => hv) m hm).conditionals rfl

theorem fault?_of_shaped (h : ResolvedAs c n) : n.fault? = none :=
  fault?_of_tidy h.tidy

end Normal

open BigStep

/-- Normalising conditionals. Every program text that is read can be resolved and normalised; its
normal form has the same runs in every semantics, from every state, with the same endings and final
states; and none of the statements that the rules rewrite is left in it, at any depth. -/
theorem runs_normalize_conditionals {State Value Declared Part : Type}
    (S : Semantics State Value Declared Part) {file text : String} {t : Node}
    (h : (parse file text).result = .ok t) :
    ∃ resolved normal, t.resolve = .ok resolved ∧
      resolved.normalize? ⟨false, false, true⟩ = .ok normal ∧
      (∀ σ c τ, S.Runs normal σ c τ ↔ S.Runs resolved σ c τ) ∧
      ∀ m ∈ normal.preorder, m.form.isRewritable = false := by
  obtain ⟨resolved, hr, hs⟩ := exists_resolve (shaped_of_parse h)
  have hn : ResolvedAs .program (resolved.normalize ⟨false, false, true⟩) :=
    Normal.shaped_normalizeUpTo hs _
  refine ⟨resolved, resolved.normalize ⟨false, false, true⟩, hr, ?_, fun σ c τ => ?_, ?_⟩
  · rw [Node.normalize?, Normal.fault?_of_shaped hn]
  · rw [Semantics.Runs, Semantics.Runs, Node.normalize, Normal.meaning_normalizeUpTo hs]
  · refine Normal.settled_normalizeUpTo hs le_rfl ?_
    by_contra hv
    cases Normal.eq_statement_of_returnsVoid hs (by simpa using hv)

namespace BigStep

/-! A small semantics: a state is the list of the names that were read, every name but `undefined`
is true, and functions are not run. -/

abbrev ReadMeaning := Meaning (List String) Bool Unit Unit

def ReadMeaning.value : ReadMeaning → Evaluation (List String) Bool
  | .expression e => e
  | _ => Evaluation.pure false

def evaluateReads : Form ReadMeaning → Evaluation (List String) Bool
  | .binary operator a b =>
    a.value.bind fun v =>
      if operator = "&&" then if v then b.value else Evaluation.pure v
      else if operator = "||" then if v then Evaluation.pure v else b.value
      else b.value
  | .conditional a b c => a.value.bind fun v => if v then b.value else c.value
  | .unary operator a =>
    a.value.bind fun v => Evaluation.pure (if operator = "!" then !v else false)
  | .symbol s =>
    if s.name = "undefined" then Evaluation.pure false
    else fun σ o τ => o = .value true ∧ τ = σ ++ [s.name]
  | form => Evaluation.pure form.isLiteral

def executeReads : Form ReadMeaning → Action (List String) Bool Unit
  | .simple e => .plain (e.value.exec fun _ => Execution.done .normal)
  | .exit .returning (some e) => .plain (e.value.exec fun v => Execution.done (.returned v))
  | .exit .returning none => .plain (Execution.done (.returned false))
  | .ifElse e s none =>
    ⟨fun _ => e.value.exec fun v => if v then s.action.run [] else Execution.done .normal,
      s.action.declares⟩
  | .ifElse e s (some t) =>
    ⟨fun _ => e.value.exec fun v => if v then s.action.run [] else t.action.run [],
      s.action.declares ++ t.action.declares⟩
  | .block body | .program body => .all (body.map Meaning.action)
  | _ => .plain (Execution.done .normal)

def stepReads (form : Form ReadMeaning) : ReadMeaning :=
  if form.isExpression then .expression (evaluateReads form)
  else if form.isBodyStatement || form.isOf .program then .statement (executeReads form)
  else .part ()

theorem stepReads_of_statement {form : Form ReadMeaning} (h : form.isBodyStatement = true) :
    stepReads form = .statement (executeReads form) := by
  have he : form.isExpression = false := by
    cases form with
    | function kind => cases kind <;> first | rfl | cases h
    | _ => first | rfl | cases h
  simp [stepReads, he, h]

theorem map_action_statement (ss : List (Action (List String) Bool Unit)) :
    (ss.map (Meaning.statement : _ → ReadMeaning)).map Meaning.action = ss := by
  simp [Function.comp_def, Meaning.action]

theorem stepReads_withBody (form : Form ReadMeaning)
    (ss ts : List (Action (List String) Bool Unit)) (h : Action.all ss = .all ts) :
    stepReads (form.withBody (ss.map .statement)) =
      stepReads (form.withBody (ts.map .statement)) := by
  cases form with
  | function kind name => cases kind <;> cases name <;> rfl
  | program =>
    have : ∀ body, stepReads (.program body) = .statement (.all (body.map Meaning.action)) :=
      fun _ => rfl
    rw [Form.withBody, Form.withBody, this, this, map_action_statement, map_action_statement, h]
  | _ => rfl

def reads : Semantics (List String) Bool Unit Unit where
  truthy := id
  ofBool := id
  undefined := false
  step := stepReads
  truthy_ofBool _ := rfl
  expression_of_isExpression _ h := ⟨_, if_pos h⟩
  statement_of_isBodyStatement _ h := ⟨_, stepReads_of_statement h⟩
  statement_of_program _ := ⟨_, rfl⟩
  and_law _ _ := rfl
  or_law _ _ := rfl
  conditional_law _ _ _ := rfl
  not_law _ := rfl
  void_law _ := rfl
  literal_law form h := by
    cases form <;> first | exact ⟨_, rfl⟩ | cases h
  undefined_law _ := rfl
  simple_law _ := rfl
  return_law _ := rfl
  bareReturn_law := rfl
  if_law _ _ := rfl
  ifElse_law _ _ _ := rfl
  block_law ss := by
    rw [stepReads_of_statement rfl, executeReads, map_action_statement]
  body_law := stepReads_withBody

end BigStep

/-- A program in which every rule has something to do. -/
def shortcuts : String :=
  "a && b; function f(x) \x7b if (x) return void g(x); return x ? y || z : undefined \x7d"

theorem isSome_shortcuts : (parse unnamedFile shortcuts).result.toOption.isSome = true := by
  decide +kernel

theorem runs_normalize_shortcuts :
    ∃ t, (parse unnamedFile shortcuts).result = .ok t ∧
      ∃ resolved normal, t.resolve = .ok resolved ∧
        resolved.normalize? ⟨false, false, true⟩ = .ok normal ∧
        (∀ σ c τ, reads.Runs normal σ c τ ↔ reads.Runs resolved σ c τ) ∧
        ∀ m ∈ normal.preorder, m.form.isRewritable = false := by
  obtain ⟨t, ht⟩ := Option.isSome_iff_exists.1 isSome_shortcuts
  have hok := eq_ok_of_toOption ht
  exact ⟨t, hok, runs_normalize_conditionals reads hok⟩

end Debundle
