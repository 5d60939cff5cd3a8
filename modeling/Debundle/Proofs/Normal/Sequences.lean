import Debundle.Proofs.Normal.Settled

/-!
# The rule for sequences keeps the meaning

A semantics is ordered if expressions are evaluated from left to right and the slot of a statement
before all else of it. In an ordered semantics a statement does what the statements do that it is
split into (`all_expand`), so a program and its normal form have the same runs.
-/
namespace Debundle

namespace BigStep

variable {State Value Declared Part : Type}

open Evaluation Execution

/-- Evaluates some expressions for their effects and then another one. -/
def Evaluation.after (e : Evaluation State Value) (es : List (Evaluation State Value)) :
    Evaluation State Value :=
  es.foldr (fun first rest => first.bind fun _ => rest) e

/-- A semantics in which the order of evaluation is that of the text. Of `with` nothing is said. -/
structure OrderedSemantics (State Value Declared Part : Type) extends
    Semantics State Value Declared Part where
  sequence_law : ∀ es e, es ≠ [] →
    step (.sequence ((es ++ [e]).map .expression)) = .expression (e.after es)
  /-- An assignment to a name evaluates its right side and then puts the value into the name. -/
  assign_law : ∀ s : Symbol, s.role = .reference → ∃ k : Value → Evaluation State Value, ∀ e,
    step (.assign "=" (step (.symbol s)) (.expression e)) = .expression (e.bind k)
  /-- A loop evaluates its initialiser and then runs without it. -/
  for_law : ∀ e condition next body,
    step (.forLoop (some (.expression e)) condition next body) =
      .statement ⟨fun labels => e.exec fun _ =>
        (step (.forLoop none condition next body)).action.run labels,
        (step (.forLoop none condition next body)).action.declares⟩
  switch_law : ∀ branches, ∃ (k : Value → List String → Execution State Value) (ds : _), ∀ e,
    step (.switch (.expression e) branches) =
      .statement ⟨fun labels => e.exec fun v => k v labels, ds⟩
  definition_law : ∀ kind name, ∃ (k : Value → Execution State Value) (ds : _), ∀ e,
    step (.declare kind [step (.definition name (some (.expression e)))]) =
      .statement ⟨fun _ => e.exec k, ds⟩
  /-- The definitions of a declaration are made one after the other. -/
  declare_law : ∀ kind ds es, ds ≠ [] → es ≠ [] →
    step (.declare kind (ds ++ es)) =
      .statement (.all [(step (.declare kind ds)).action, (step (.declare kind es)).action])
  /-- A statement under the control of another matters by what it does. -/
  control_law : ∀ (form : Form (Meaning State Value Declared Part))
    (s t : Action State Value Declared), Action.all [s] = .all [t] →
    step (form.withControlled (.statement s)) = step (form.withControlled (.statement t))

/-- Expressions that are evaluated for their effects, as statements. -/
def Action.effects (es : List (Evaluation State Value)) : List (Action State Value Declared) :=
  es.map fun e => .plain (e.exec fun _ => done .normal)

theorem exec_after (es : List (Evaluation State Value)) (e : Evaluation State Value)
    (k : Value → Execution State Value) (ds : List Declared) :
    Action.all (Action.effects es ++ [⟨fun _ => e.exec k, ds⟩]) = ⟨fun _ => (e.after es).exec k, ds⟩ := by
  induction es with
  | nil => simp [Action.all, Action.effects, Evaluation.after]
  | cons first es ih =>
    have hrun := congrFun (congrArg Action.run ih) []
    refine Action.ext ?_ ?_
    · funext labels
      change ((first.exec fun _ => done .normal).next
        ((Action.all (Action.effects es ++ [⟨fun _ => e.exec k, ds⟩])).run [])) = _
      rw [hrun, exec_next]
      simp only [done_next, Evaluation.after, List.foldr_cons, exec_bind]
    · simp [Action.all, Action.effects, Action.plain]

end BigStep

namespace Normal

open BigStep Evaluation Execution

variable {State Value Declared Part : Type} {S : OrderedSemantics State Value Declared Part}
variable {c : Category} {n : Node} {line : Option Nat} {form : Form Node}

/-- Names, as they are used in expressions. -/
def isReference : Form Node → Bool
  | .symbol s => s.role = .reference
  | _ => false

/-- No `with`, and a sequence is assigned with `=` and to a name only. -/
def isOrdered : Form Node → Bool
  | .withObject .. => false
  | .assign operator left right =>
    !right.form.isSequence || (operator = "=" && isReference left.form)
  | _ => true

/-- A tree in which sequences are evaluated before all else of a statement. -/
abbrev Ordered : Category → Node → Prop :=
  Shaped fun form => isOrdered form = true

theorem stable_isOrdered :
    Stable fun form : Form Node => isOrdered form = true ∧ form.isNamedConstant = false where
  of_isFree := by
    intro form h
    cases form <;> first | exact ⟨rfl, rfl⟩ | cases h
  negation := ⟨rfl, rfl⟩
  withObject h := nomatch h.1
  assign := by
    intro operator left right line items h
    have hleft : (decide (operator = "=") && isReference left.form) = true := h.1
    exact ⟨by simp [isOrdered, hleft], rfl⟩

theorem names_isOrdered {sequences conditionals : Bool} :
    Names (fun form : Form Node => isOrdered form = true ∧ form.isNamedConstant = false)
      ⟨false, sequences, conditionals⟩ :=
  nofun

/-! ## Slots -/

theorem meaning_items {xs : List Node} (h : ∀ x ∈ xs, Ordered .expression x) :
    ∃ es : List (Evaluation State Value), xs.map S.meaning = es.map .expression ∧
      (xs.map Node.asStatement).map S.act = Action.effects es := by
  induction xs with
  | nil => exact ⟨[], rfl, rfl⟩
  | cons x xs ih =>
    rw [List.forall_mem_cons] at h
    obtain ⟨e, he⟩ := S.meaning_expression h.1
    obtain ⟨es, hes, hacts⟩ := ih h.2
    refine ⟨e :: es, by simp [he, hes], ?_⟩
    rw [List.map_cons, List.map_cons, hacts, Semantics.act, asStatement_of_tidy h.1.tidy,
      meaning_simple he]
    rfl

theorem meaning_sequence {l : Option Nat} {leading : List Node} {last : Node}
    {es : List (Evaluation State Value)} {e : Evaluation State Value} (hne : leading ≠ [])
    (hes : leading.map S.meaning = es.map .expression) (he : S.meaning last = .expression e) :
    S.meaning (.mk l (.sequence (leading ++ [last]))) = .expression (e.after es) := by
  have hes' : es ≠ [] := by
    rintro rfl
    exact hne (List.map_eq_nil_iff.1 hes)
  rw [S.meaning_mk, Form.map, List.map_append, hes, List.map_singleton, he,
    ← S.sequence_law es e hes', List.map_append]
  rfl

theorem meaning_fill {slot : Slot} {l : Option Nat} {items : List Node}
    (h : Ordered .statement (slot.fill (.mk l (.sequence items)))) :
    ∃ (k : Value → List String → Execution State Value) (ds : List Declared),
      ∀ (x : Node) (e : Evaluation State Value), S.meaning x = .expression e →
        S.meaning (slot.fill x) = .statement ⟨fun labels => e.exec fun v => k v labels, ds⟩ := by
  have part : ∀ {d : Category} {m : Node},
      (d, m) ∈ (slot.fill (.mk l (.sequence items))).form.parts .statement → Ordered d m :=
    fun hm => h.part hm
  cases slot with
  | returned line =>
    refine ⟨fun v _ => done (.returned v), [], fun x e he => ?_⟩
    rw [Slot.fill, S.meaning_mk, Form.map, Option.map_some, he, S.return_law]
    rfl
  | simple line =>
    refine ⟨fun _ _ => done .normal, [], fun x e he => ?_⟩
    rw [Slot.fill, meaning_simple he]
    rfl
  | condition line body alternative =>
    have hbody : S.meaning body = .statement (S.act body) :=
      Semantics.meaning_statement (part (.tail _ (.head _)))
    cases alternative with
    | none =>
      refine ⟨fun v _ => if S.truthy v then (S.act body).run [] else done .normal,
        (S.act body).declares, fun x e he => ?_⟩
      rw [Slot.fill, S.meaning_mk, Form.map, Option.map_none, he, hbody, S.if_law]
    | some other =>
      have hother : S.meaning other = .statement (S.act other) :=
        Semantics.meaning_statement (part (.tail _ (.tail _ (.head _))))
      refine ⟨fun v _ => if S.truthy v then (S.act body).run [] else (S.act other).run [],
        (S.act body).declares ++ (S.act other).declares, fun x e he => ?_⟩
      rw [Slot.fill, S.meaning_mk, Form.map, Option.map_some, he, hbody, hother, S.ifElse_law]
  | start line test step body =>
    let loop := (S.step (.forLoop none (test.map S.meaning) (step.map S.meaning)
      (S.meaning body))).action
    refine ⟨fun _ => loop.run, loop.declares, fun x e he => ?_⟩
    rw [Slot.fill, S.meaning_mk, Form.map, Option.map_some, he, S.for_law]
  | object line body => cases h.own
  | subject line branches =>
    obtain ⟨k, ds, hlaw⟩ := S.switch_law (branches.map S.meaning)
    refine ⟨k, ds, fun x e he => ?_⟩
    rw [Slot.fill, S.meaning_mk, Form.map, he, hlaw]
  | assigned line inner operator left =>
    have ha : Ordered .expression (.mk inner (.assign operator left (.mk l (.sequence items)))) :=
      part (.head _)
    obtain ⟨rfl, hleft⟩ : operator = "=" ∧ isReference left.form = true := by
      simpa [isOrdered, Node.form, Form.isSequence] using ha.own
    obtain ⟨ll, lform⟩ := left
    cases lform with
    | symbol s =>
      obtain ⟨k, hlaw⟩ := S.assign_law s (by simpa [isReference, Node.form] using hleft)
      refine ⟨fun v _ => (k v).exec fun _ => done .normal, [], fun x e he => ?_⟩
      have hassign : S.meaning (.mk inner (.assign "=" (.mk ll (.symbol s)) x)) =
          .expression (e.bind k) := by
        rw [S.meaning_mk, Form.map, S.meaning_mk, he]
        exact hlaw e
      rw [Slot.fill, meaning_simple hassign, exec_bind]
      rfl
    | _ => cases hleft

theorem all_fill {slot : Slot} {l : Option Nat} {leading : List Node} {last : Node}
    (h : Ordered .statement (slot.fill (.mk l (.sequence (leading ++ [last])))))
    (hne : leading ≠ []) (hall : ∀ x ∈ leading ++ [last], Ordered .expression x) :
    Action.all ((leading.map Node.asStatement ++ [slot.fill last]).map S.act) =
      .all [S.act (slot.fill (.mk l (.sequence (leading ++ [last]))))] := by
  rw [List.forall_mem_append] at hall
  obtain ⟨k, ds, hfill⟩ := meaning_fill (S := S) h
  obtain ⟨es, hes, hacts⟩ := meaning_items (S := S) hall.1
  obtain ⟨e, he⟩ := S.meaning_expression (hall.2 last (by simp))
  have hlast := hfill last e he
  have hwhole := hfill _ _ (meaning_sequence (l := l) hne hes he)
  rw [List.map_append, hacts, List.map_singleton, Semantics.act, hlast, Semantics.act, hwhole]
  have := exec_after es e (fun v => k v []) ds
  simpa [Action.all, Meaning.action] using this

/-! ## Declarations -/

section Declarations

variable {kind : String}

theorem act_declare (ds : List Node) :
    S.act (.mk line (.declare kind ds)) = (S.step (.declare kind (ds.map S.meaning))).action := by
  rw [Semantics.act, S.meaning_mk, Form.map]

theorem all_declare_append (ds es : List Node) (hd : ds ≠ []) (he : es ≠ []) :
    Action.all [S.act (.mk line (.declare kind (ds ++ es)))] =
      .all [S.act (.mk line (.declare kind ds)), S.act (.mk line (.declare kind es))] := by
  rw [act_declare, act_declare, act_declare, List.map_append,
    S.declare_law kind _ _ (by simpa using hd) (by simpa using he)]
  simp [Action.all, Meaning.action]

theorem all_declare_sequence (line l l' : Option Nat) (kind : String) (name : Node)
    (rest : List Node) {last : Node} {leading : List Node} (hne : leading ≠ []) (hall : ∀ x ∈ leading ++ [last], Ordered .expression x) :
    Action.all [S.act (.mk line (.declare kind
        (.mk l (.definition name (some (.mk l' (.sequence (leading ++ [last]))))) :: rest)))] =
      .all ((leading.map Node.asStatement).map S.act ++
        [S.act (.mk line (.declare kind (.mk l (.definition name (some last)) :: rest)))]) := by
  rw [List.forall_mem_append] at hall
  obtain ⟨k, ds, hlaw⟩ := S.definition_law kind (S.meaning name)
  obtain ⟨es, hes, hacts⟩ := meaning_items (S := S) hall.1
  obtain ⟨e, he⟩ := S.meaning_expression (hall.2 last (by simp))
  have single : ∀ x e, S.meaning x = .expression e →
      S.act (.mk line (.declare kind [.mk l (.definition name (some x))])) =
        ⟨fun _ => e.exec k, ds⟩ := fun x e hx => by
    rw [act_declare, List.map_singleton, S.meaning_mk, Form.map, Option.map_some, hx, hlaw]
    rfl
  have hlast := single last e he
  have hwhole := single _ _ (meaning_sequence (l := l') hne hes he)
  have hfirst := exec_after es e k ds
  cases rest with
  | nil =>
    rw [hlast, hwhole, hacts, hfirst]
    simp [Action.all]
  | cons d rest =>
    have split : ∀ x : Node, Action.all [S.act (.mk line (.declare kind (x :: d :: rest)))] =
        .all [S.act (.mk line (.declare kind [x])), S.act (.mk line (.declare kind (d :: rest)))] :=
      fun x => all_declare_append [x] (d :: rest) (List.cons_ne_nil _ _) (List.cons_ne_nil _ _)
    calc Action.all [S.act (.mk line (.declare kind (_ :: d :: rest)))]
        = .all ([.all (Action.effects es ++ [⟨fun _ => e.exec k, ds⟩])] ++
            [S.act (.mk line (.declare kind (d :: rest)))]) := by
          rw [split, hwhole, hfirst]
          rfl
      _ = .all (Action.effects es ++ [⟨fun _ => e.exec k, ds⟩] ++
            [S.act (.mk line (.declare kind (d :: rest)))]) :=
          Action.all_append_congr (Action.all_all _) rfl
      _ = .all (Action.effects es ++ [S.act (.mk line (.declare kind (_ :: d :: rest)))]) := by
          rw [List.append_assoc]
          refine Action.all_append_congr rfl ?_
          rw [split, hlast]
          rfl
      _ = _ := by rw [hacts]

theorem all_splitDeclarators (current : List Node) {definitions : List Node}
    (hne : current ≠ [] ∨ definitions ≠ []) (hd : ∀ d ∈ definitions, Ordered .definition d) :
    Action.all ((splitDeclarators (fun ds => .mk line (.declare kind ds)) current definitions).map
        S.act) =
      .all [S.act (.mk line (.declare kind (current.reverse ++ definitions)))] := by
  induction definitions generalizing current with
  | nil => rw [splitDeclarators, List.append_nil, List.map_singleton]
  | cons d rest ih =>
    rw [List.forall_mem_cons] at hd
    obtain hi | ⟨l, name, l', leading, last, rfl, -, hne', hall⟩ := initial_cases hd.1.tidy
    · rw [splitDeclarators_plain hi, ih _ (.inl (List.cons_ne_nil _ _)) hd.2, List.reverse_cons,
        List.append_assoc]
      rfl
    · have hrest := ih [.mk l (.definition name (some last))] (.inl (List.cons_ne_nil _ _)) hd.2
      have hsequence := all_declare_sequence (S := S) line l l' kind name rest hne'
        fun x hx => (hall x hx).shaped
      -- The statements from this definition on.
      have htail : Action.all ((leading.map Node.asStatement ++ splitDeclarators
          (fun ds => .mk line (.declare kind ds)) [.mk l (.definition name (some last))] rest).map
          S.act) = .all [S.act (.mk line (.declare kind
            (.mk l (.definition name (some (.mk l' (.sequence (leading ++ [last]))))) :: rest)))] := by
        rw [hsequence, List.map_append]
        exact Action.all_append_congr rfl hrest
      rw [splitDeclarators_sequence hall, List.append_assoc, List.map_append]
      cases current with
      | nil => exact htail
      | cons first current =>
        rw [if_neg (by simp), all_declare_append _ _ (by simp) (List.cons_ne_nil _ _)]
        have hbefore : Action.all ([Node.mk line (.declare kind (first :: current).reverse)].map S.act) =
            .all [S.act (.mk line (.declare kind (first :: current).reverse))] := rfl
        exact Action.all_append_congr hbefore htail

end Declarations

/-! ## Splitting a statement -/

theorem all_split? (h : Ordered .statement n) {parts : List Node} (hs : split? n = some parts) :
    Action.all (parts.map S.act) = .all [S.act n] := by
  obtain hn | ⟨slot, l, leading, last, rfl, hset, hne, hall⟩ | ⟨line, kind, ds, rfl, -, hn⟩ :=
    split?_cases h.tidy
  · cases hn.symm.trans hs
  · cases (split?_fill hset l hall).symm.trans hs
    exact all_fill h hne fun x hx => (hall x hx).shaped
  · cases hn.symm.trans hs
    have hds : ds ≠ [] := by
      rintro rfl
      cases h.tidy.isBodyStatement
    exact all_splitDeclarators [] (.inr hds) fun d hd =>
      h.part (p := (.definition, d)) (by simp [Node.form, Form.parts, Form.many, hd])

theorem all_expand (h : Ordered .statement n) :
    Action.all ((expand n).map S.act) = .all [S.act n] := by
  refine split?_induct stable_isOrdered
    (motive := fun n => Action.all ((expand n).map S.act) = .all [S.act n])
    (fun n h hs => ?_) (fun n parts h hs ih => ?_) h.tidy
  · rw [expand_of_none hs, List.map_singleton]
  · rw [expand_of_some stable_isOrdered h hs, List.map_flatMap, Action.all_flatMap _ _ _ ih]
    exact all_split? h.shaped hs

theorem ordered_expand (h : Ordered .statement n) : ∀ m ∈ expand n, Ordered .statement m :=
  fun m hm => (tidy_expand stable_isOrdered h.tidy m hm).shaped

theorem ordered_wrap (h : Ordered .statement n) : Ordered .statement (wrap n (expand n)) :=
  (tidy_wrap stable_isOrdered (tidy_expand stable_isOrdered h.tidy)).shaped

theorem all_wrap (h : Ordered .statement n) :
    Action.all [S.act (wrap n (expand n))] = .all [S.act n] := by
  have htidy := tidy_expand stable_isOrdered h.tidy
  rw [← all_expand h]
  by_cases hl : (expand n).length = 1
  · obtain ⟨part, heq⟩ := List.length_eq_one_iff.1 hl
    rw [heq] at htidy ⊢
    rw [wrap_singleton (htidy part (.head _)), List.map_singleton]
  · rw [wrap_of_length_ne (fun m hm => ⟨_, htidy m hm⟩) hl, Semantics.act, S.meaning_mk, Form.map,
      Semantics.map_meaning (ordered_expand h), S.block_law, Meaning.action, Action.all_all]

/-! ## One node -/

theorem meaning_splitBodies_expand (h : Ordered c (.mk line form)) :
    S.meaning (.mk line (splitBodies false expand form)) = S.meaning (.mk line form) := by
  refine meaning_splitBodies_of h (fun n hn => expand_of_branch hn.tidy) (fun n => ordered_expand)
    (fun n => all_expand) (fun g n hn => ?_) ?_ nofun
  · rw [Form.withControlled_map, Form.withControlled_map,
      Semantics.meaning_statement (ordered_wrap hn), Semantics.meaning_statement hn]
    exact S.control_law _ _ _ (all_wrap hn)
  · rintro condition body alternative rfl
    have hstatement : ∀ n ∈ body :: alternative.toList, Ordered .statement n := fun n hn =>
      h.part (p := (.statement, n)) (by simpa [Node.form, Form.parts_ifElse, Form.many] using hn)
    have hbody := hstatement body (.head _)
    obtain ⟨e, he⟩ := S.meaning_expression (h.part (p := (.expression, condition)) (.head _))
    obtain ⟨hrun, hdeclares⟩ := Action.run_of_all_eq (all_wrap (S := S) hbody)
    rw [splitBodies_ifElse, Form.map, Form.map, he, Semantics.meaning_statement (ordered_wrap hbody),
      Semantics.meaning_statement hbody]
    cases alternative with
    | none => rw [Option.map_none, Option.map_none, S.if_law, S.if_law, hrun, hdeclares]
    | some other =>
      have hother := hstatement other (by simp)
      obtain ⟨hrun', hdeclares'⟩ := Action.run_of_all_eq (all_wrap (S := S) hother)
      rw [Option.map_some, Option.map_some, Option.map_some,
        Semantics.meaning_statement (ordered_wrap hother), Semantics.meaning_statement hother,
        S.ifElse_law, S.ifElse_law, hrun, hdeclares, hrun', hdeclares']

theorem meaning_settle_sequences
    (h : Tidy (fun form => isOrdered form = true ∧ form.isNamedConstant = false) c (.mk line form)) :
    S.meaning (.mk line (settle ⟨false, true, false⟩ line form)) = S.meaning (.mk line form) := by
  rw [settle_of_tidy stable_isOrdered names_isOrdered h]
  exact meaning_splitBodies_expand h.shaped

end Normal

open BigStep Normal

namespace BigStep

/-! The small semantics with the order of evaluation made visible: an assignment reads its target
too, after its right side if it is plain and before it otherwise, and a loop runs its body any
number of times. -/

def loopReads (body : ReadMeaning) : Action (List String) Bool Unit :=
  ⟨fun _ σ c τ => ∃ times, (List.replicate times (body.action.run [])).foldr Execution.next
    (Execution.done .normal) σ c τ, body.action.declares⟩

def orderedRead : Form ReadMeaning → Option ReadMeaning
  | .sequence items => some (.expression (match items.getLast? with
    | some last => last.value.after (items.dropLast.map ReadMeaning.value)
    | none => Evaluation.pure false))
  | .assign operator left right => some (.expression (
    if operator = "=" then right.value.bind fun v => left.value.bind fun _ => Evaluation.pure v
    else left.value.bind fun _ => right.value))
  | .definition _ value => some (.expression (match value with
    | some e => e.value
    | none => Evaluation.pure false))
  | .declare _ definitions => some (.statement (.all (definitions.map fun d =>
    .plain (d.value.exec fun _ => Execution.done .normal))))
  | .switch e _ => some (.statement (.plain (e.value.exec fun _ => Execution.done .normal)))
  | .forLoop (some e) _ _ body => some (.statement
    ⟨fun _ => e.value.exec fun _ => (loopReads body).run [], (loopReads body).declares⟩)
  | .forLoop none _ _ body | .forIn _ _ body | .whileLoop _ body | .doWhile body _ =>
    some (.statement (loopReads body))
  | _ => none

def stepOrdered (form : Form ReadMeaning) : ReadMeaning :=
  (orderedRead form).getD (stepReads form)

theorem stepOrdered_of_none {form : Form ReadMeaning} (h : orderedRead form = none) :
    stepOrdered form = stepReads form := by
  rw [stepOrdered, h, Option.getD_none]

theorem loopReads_congr {s t : Action (List String) Bool Unit} (h : Action.all [s] = .all [t]) :
    loopReads (.statement s) = loopReads (.statement t) := by
  obtain ⟨hrun, hdeclares⟩ := Action.run_of_all_eq h
  simp only [loopReads, Meaning.action, hrun, hdeclares]

theorem stepOrdered_withControlled (form : Form ReadMeaning)
    (s t : Action (List String) Bool Unit) (h : Action.all [s] = .all [t]) :
    stepOrdered (form.withControlled (.statement s)) =
      stepOrdered (form.withControlled (.statement t)) := by
  have hloop := loopReads_congr h
  cases form with
  | whileLoop | doWhile | forIn => exact congrArg Meaning.statement hloop
  | forLoop init =>
    cases init with
    | none => exact congrArg Meaning.statement hloop
    | some e => simp only [Form.withControlled, stepOrdered, orderedRead, Option.getD_some, hloop]
  | _ => rfl

def orderedReads : OrderedSemantics (List String) Bool Unit Unit where
  truthy := id
  ofBool := id
  undefined := false
  step := stepOrdered
  truthy_ofBool := Eq.refl
  expression_of_isExpression form h := by
    cases hr : orderedRead form with
    | none => exact ⟨_, (stepOrdered_of_none hr).trans (if_pos h)⟩
    | some m =>
      cases form with
      | sequence | assign => exact ⟨_, rfl⟩
      | declare | switch | definition | forLoop | forIn | whileLoop | doWhile => cases h
      | _ => cases hr
  statement_of_isBodyStatement form h := by
    cases hr : orderedRead form with
    | none => exact ⟨_, (stepOrdered_of_none hr).trans (stepReads_of_statement h)⟩
    | some m =>
      cases form with
      | declare | switch | forIn | whileLoop | doWhile => exact ⟨_, rfl⟩
      | forLoop init => cases init <;> exact ⟨_, rfl⟩
      | sequence | assign | definition => cases h
      | _ => cases hr
  statement_of_program _ := ⟨_, rfl⟩
  and_law _ _ := rfl
  or_law _ _ := rfl
  conditional_law _ _ _ := rfl
  not_law _ := rfl
  void_law _ := rfl
  literal_law form h := by
    cases form <;> first | exact ⟨_, rfl⟩ | cases h
  undefined_law _ := rfl
  simple_law _ := rfl
  return_law _ := rfl
  bareReturn_law := rfl
  if_law _ _ := rfl
  ifElse_law _ _ _ := rfl
  block_law ss := reads.block_law ss
  body_law form ss ts h := by
    cases form with
    | program body => exact reads.body_law (.program body) ss ts h
    | function kind name parameters body =>
      exact reads.body_law (.function kind name parameters body) ss ts h
    | _ => rfl
  sequence_law es e _ := by
    simp [stepOrdered, orderedRead, ReadMeaning.value, Function.comp_def]
  assign_law s _ := ⟨_, fun _ => rfl⟩
  for_law _ _ _ _ := rfl
  switch_law _ := ⟨fun _ _ => Execution.done .normal, [], fun _ => rfl⟩
  definition_law _ _ := ⟨fun _ => Execution.done .normal, [], fun _ =>
    congrArg Meaning.statement (Action.all_plain _)⟩
  declare_law kind ds es _ _ := by
    simp only [stepOrdered, orderedRead, Option.getD_some, Meaning.action, List.map_append]
    exact congrArg Meaning.statement
      (Action.all_append_congr (Action.all_all _).symm (Action.all_all _).symm)
  control_law := stepOrdered_withControlled

end BigStep

/-- A declaration by a sequence, and sequences in a loop and under its control. -/
def sequences : String :=
  "var a = (b, c); for (d, e; ;) x = (f, g)"

end Debundle
