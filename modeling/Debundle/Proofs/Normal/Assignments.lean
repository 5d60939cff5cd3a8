import Debundle.Proofs.Normal.Sequences

/-!
# Splitting assignments

An assignment evaluates the base of its target first, then, if it combines, the old value of the
target, and its right side after that. When a sequence on the right is split, all of it but the last
expression comes before the target. This never matters if the target is a name or a property of
`this` that is set with `=`, or `this` itself; for every other target there are expressions with
which it does (`run_splitAssignment?_iff`).
-/
namespace Debundle

namespace BigStep

variable {State Value : Type}

open Execution

namespace Evaluation

@[simp] theorem pure_bind (v : Value) (k : Value → Evaluation State Value) :
    (pure v).bind k = k v := by
  funext σ o τ
  refine propext ⟨?_, fun h => .inl ⟨v, σ, ⟨rfl, rfl⟩, h⟩⟩
  rintro (⟨w, ρ, ⟨⟨⟩, rfl⟩, h⟩ | ⟨w, ⟨⟨⟩, -⟩, -⟩)
  exact h

theorem bind_assoc (e : Evaluation State Value) (k j : Value → Evaluation State Value) :
    (e.bind k).bind j = e.bind fun v => (k v).bind j := by
  funext σ o τ
  refine propext ⟨?_, ?_⟩
  · rintro (⟨w, ρ, ⟨v, π, he, hk⟩ | ⟨v, -, ⟨⟩⟩, hj⟩ | ⟨w, ⟨v, π, he, hk⟩ | ⟨v, he, ⟨⟩⟩, ho⟩)
    · exact .inl ⟨v, π, he, .inl ⟨w, ρ, hk, hj⟩⟩
    · exact .inl ⟨v, π, he, .inr ⟨w, hk, ho⟩⟩
    · exact .inr ⟨w, he, ho⟩
  · rintro (⟨v, π, he, ⟨w, ρ, hk, hj⟩ | ⟨w, hk, ho⟩⟩ | ⟨v, he, ho⟩)
    · exact .inl ⟨w, ρ, .inl ⟨v, π, he, hk⟩, hj⟩
    · exact .inr ⟨w, .inl ⟨v, π, he, hk⟩, ho⟩
    · exact .inr ⟨v, .inr ⟨v, he, rfl⟩, ho⟩

theorem after_bind (e : Evaluation State Value) (es : List (Evaluation State Value))
    (k : Value → Evaluation State Value) : (e.after es).bind k = (e.bind k).after es := by
  induction es with
  | nil => rfl
  | cons first es ih =>
    simp only [after, List.foldr_cons, bind_assoc] at ih ⊢
    rw [ih]

/-- Reads something off the state. -/
def look (f : State → Value) : Evaluation State Value :=
  fun σ o τ => o = .value (f σ) ∧ τ = σ

/-- Evaluations that do not change what is read off the state. -/
def Keeps (f : State → Value) (e : Evaluation State Value) : Prop :=
  ∀ σ o τ, e σ o τ → f τ = f σ

theorem look_bind_bind {f : State → Value} {e : Evaluation State Value} (he : e.Keeps f)
    (k : Value → Evaluation State Value) :
    (look f).bind (fun v => e.bind fun _ => k v) = e.bind fun _ => (look f).bind k := by
  funext σ o τ
  refine propext ⟨?_, ?_⟩
  · rintro (⟨v, ρ, ⟨⟨⟩, rfl⟩, ⟨w, π, hw, hk⟩ | ht⟩ | ⟨v, ⟨⟨⟩, -⟩, -⟩)
    · exact .inl ⟨w, π, hw, .inl ⟨_, π, ⟨rfl, rfl⟩, he _ _ _ hw ▸ hk⟩⟩
    · exact .inr ht
  · rintro (⟨w, π, hw, ⟨v, ρ, ⟨⟨⟩, rfl⟩, hk⟩ | ⟨v, ⟨⟨⟩, -⟩, -⟩⟩ | ⟨w, hw, ho⟩)
    · exact .inl ⟨_, σ, ⟨rfl, rfl⟩, .inl ⟨w, _, hw, he _ _ _ hw ▸ hk⟩⟩
    · exact .inl ⟨_, σ, ⟨rfl, rfl⟩, .inr ⟨w, hw, ho⟩⟩

theorem look_bind_after {f : State → Value} {es : List (Evaluation State Value)}
    (hes : ∀ e ∈ es, Keeps f e) (k : Value → Evaluation State Value) :
    (look f).bind (fun v => (k v).after es) = ((look f).bind k).after es := by
  induction es with
  | nil => rfl
  | cons first es ih =>
    rw [List.forall_mem_cons] at hes
    simp only [after, List.foldr_cons] at ih ⊢
    rw [look_bind_bind hes.1, ih hes.2]

end Evaluation

open Evaluation in
/-- What expressions evaluate to and what statements do, as far as assignments are concerned. Targets
are names, `this` and their properties, also properties of properties. -/
structure AssignmentSemantics (State Value : Type) where
  undefined : Value
  /-- The value of `this`. -/
  receiver : State → Value
  eval : Node → Evaluation State Value
  run : Node → Execution State Value
  /-- What an assignment evaluates of its target before all else. -/
  base : Node → Evaluation State Value
  /-- Makes the value before a dot an object. -/
  coerce : Value → Evaluation State Value
  /-- The old value of a target with a given base. -/
  load : Node → Value → Evaluation State Value
  /-- What an operator puts into a target, from the base, the old value and the one on the right. -/
  store : String → Node → Value → Value → Value → Evaluation State Value
  simple_law : ∀ line e, run (.mk line (.simple e)) = (eval e).exec fun _ => done .normal
  sequence_law : ∀ line leading last, leading ≠ [] →
    eval (.mk line (.sequence (leading ++ [last]))) = (eval last).after (leading.map eval)
  self_law : ∀ line, eval (.mk line .self) = look receiver
  /-- No expression changes `this`. -/
  receiver_law : ∀ n, (eval n).Keeps receiver
  base_symbol : ∀ line s, base (.mk line (.symbol s)) = pure undefined
  base_self : ∀ line, base (.mk line .self) = look receiver
  base_dot : ∀ line object property,
    base (.mk line (.dot object property)) = (eval object).bind coerce
  /-- `this` is an object. -/
  coerce_receiver : ∀ σ, coerce (receiver σ) = pure (receiver σ)
  load_self : ∀ line v, load (.mk line .self) v = pure v
  assign_law : ∀ line operator left right, Normal.isSettledTarget left = true →
    eval (.mk line (.assign operator left right)) =
      (base left).bind fun b =>
        (if operator = "=" then pure undefined else load left b).bind fun old =>
          (eval right).bind fun v => store operator left b old v

/-- Statements one after the other. -/
def AssignmentSemantics.runAll (S : AssignmentSemantics State Value) (ns : List Node) :
    Execution State Value :=
  (ns.map S.run).foldr next (done .normal)

end BigStep

namespace Normal

open BigStep Evaluation Execution

variable {State Value : Type} {S : AssignmentSemantics State Value}

/-- Trees as they are read, of a category. -/
abbrev WellShaped : Category → Node → Prop :=
  Shaped fun _ => True

def isSelf : Form Node → Bool
  | .self => true
  | _ => false

/-- Targets of which nothing can change before the value is put into them. -/
def isSteady (operator : String) (left : Node) : Bool :=
  match left.form with
  | .self => true
  | .symbol _ => operator = "="
  | .dot object _ => operator = "=" && isSelf object.form
  | _ => false

/-- An assignment statement. -/
def assignment (line inner : Option Nat) (operator : String) (left right : Node) : Node :=
  .mk line (.simple (.mk inner (.assign operator left right)))

theorem splitAssignment?_assignment {line inner l : Option Nat} {operator : String}
    {left last : Node} {leading : List Node} (hs : isSettledTarget left = true)
    (hall : ∀ x ∈ leading ++ [last], WellShaped .expression x) :
    splitAssignment? (assignment line inner operator left (.mk l (.sequence (leading ++ [last])))) =
      some (leading.map Node.asStatement ++ [assignment line inner operator left last]) := by
  rw [assignment, splitAssignment?, if_pos hs, hoist_append fun x hx => (hall x hx).tidy]
  rfl

/-! ## Targets that nothing changes -/

/-- What a steady target does before the right side can be done after it. -/
theorem eval_assign_sequence {inner l : Option Nat} {operator : String} {left last : Node}
    {leading : List Node} (hs : isSettledTarget left = true) (hne : leading ≠ [])
    (h : isSteady operator left = true) :
    S.eval (.mk inner (.assign operator left (.mk l (.sequence (leading ++ [last]))))) =
      (S.eval (.mk inner (.assign operator left last))).after (leading.map S.eval) := by
  have hkeeps : ∀ e ∈ leading.map S.eval, Keeps S.receiver e := by
    simpa using fun n _ => S.receiver_law n
  -- Both cases of `this` as a base: the value goes on to `k`, which does not look at the state.
  have self : ∀ k : Value → Value → Evaluation State Value,
      ((look S.receiver).bind fun b => (S.eval last).after (leading.map S.eval) |>.bind (k b)) =
        ((look S.receiver).bind fun b => (S.eval last).bind (k b)).after (leading.map S.eval) := by
    intro k
    simp only [after_bind]
    exact look_bind_after hkeeps _
  rw [S.assign_law _ _ _ _ hs, S.assign_law _ _ _ _ hs, S.sequence_law _ _ _ hne]
  obtain ⟨line, form⟩ := left
  cases form with
  | self =>
    rw [S.base_self]
    by_cases ho : operator = "="
    · simpa only [ho, if_true, pure_bind] using self _
    · simpa only [ho, if_false, S.load_self, pure_bind] using self _
  | symbol s =>
    obtain rfl : operator = "=" := by simpa [isSteady, Node.form] using h
    rw [S.base_symbol]
    simp only [if_true, pure_bind, after_bind]
  | dot object property =>
    obtain ⟨rfl, ho⟩ : operator = "=" ∧ isSelf object.form = true := by
      simpa [isSteady, Node.form] using h
    obtain ⟨ll, form⟩ := object
    cases form with
    | self =>
      have hbase : (look S.receiver).bind S.coerce = look S.receiver := by
        funext σ o τ
        refine propext ⟨?_, ?_⟩
        · rintro (⟨v, ρ, ⟨⟨⟩, rfl⟩, hc⟩ | ⟨v, ⟨⟨⟩, -⟩, -⟩)
          rwa [S.coerce_receiver] at hc
        · rintro ⟨rfl, rfl⟩
          exact .inl ⟨_, _, ⟨rfl, rfl⟩, by rw [S.coerce_receiver]; exact ⟨rfl, rfl⟩⟩
      rw [S.base_dot, S.self_law, hbase]
      simpa only [if_true, pure_bind] using self _
    | _ => cases ho
  | _ => cases h

theorem runAll_asStatement {leading : List Node} {last : Node} (line : Option Nat)
    (hall : ∀ x ∈ leading, WellShaped .expression x) :
    S.runAll (leading.map Node.asStatement ++ [.mk line (.simple last)]) =
      ((S.eval last).after (leading.map S.eval)).exec fun _ => done .normal := by
  induction leading with
  | nil => simp [AssignmentSemantics.runAll, S.simple_law, after]
  | cons first leading ih =>
    rw [List.forall_mem_cons] at hall
    have hrest := ih hall.2
    simp only [AssignmentSemantics.runAll, List.map_cons, List.cons_append, List.foldr_cons, after]
      at hrest ⊢
    rw [hrest, asStatement_of_tidy hall.1.tidy, S.simple_law, exec_next, exec_bind]
    simp only [done_next]

theorem runAll_of_isSteady {line inner l : Option Nat} {operator : String} {left last : Node}
    {leading : List Node} (hs : isSettledTarget left = true)
    (hall : ∀ x ∈ leading, WellShaped .expression x) (hne : leading ≠ [])
    (h : isSteady operator left = true) :
    S.runAll (leading.map Node.asStatement ++ [assignment line inner operator left last]) =
      S.run (assignment line inner operator left (.mk l (.sequence (leading ++ [last])))) := by
  rw [assignment, assignment, runAll_asStatement line hall, S.simple_law,
    eval_assign_sequence hs hne h]

end Normal

/-! ## A store of variables and properties -/

namespace BigStep

open Evaluation Execution

/-- Variables, and the properties of objects. Objects are numbers, like all other values. -/
structure Memory where
  scope : String → Nat
  heap : Nat → String → Nat

namespace Memory

def setVariable (σ : Memory) (name : String) (v : Nat) : Memory :=
  { σ with scope := Function.update σ.scope name v }

def setProperty (σ : Memory) (object : Nat) (property : String) (v : Nat) : Memory :=
  { σ with heap :=
      Function.update σ.heap object (Function.update (σ.heap object) property v) }

/-- The value of an expression, and that of its base if it is a target. -/
structure Sense where
  value : Evaluation Memory Nat
  base : Evaluation Memory Nat

def load (target : Node) (base : Nat) : Evaluation Memory Nat :=
  match target.form with
  | .symbol s => look (·.scope s.name)
  | .dot _ property => look (·.heap base property)
  | _ => pure base

/-- Operators other than `=` add. -/
def combine (operator : String) (old v : Nat) : Nat :=
  if operator = "=" then v else old + v

/-- Nothing can be put into `this`. -/
def store (operator : String) (target : Node) (base old v : Nat) : Evaluation Memory Nat :=
  let w := combine operator old v
  match target.form with
  | .symbol s => fun σ o τ => o = .value w ∧ τ = σ.setVariable s.name w
  | .dot _ property => fun σ o τ => o = .value w ∧ τ = σ.setProperty base property w
  | _ => fun σ o τ => o = .thrown 0 ∧ τ = σ

/-- `this` is the object `0`. Expressions other than targets, assignments, sequences and whole numbers
do nothing. -/
def sense : Node → Sense :=
  Node.foldUp fun _ form =>
    match form with
    | .symbol s => ⟨look (·.scope s.name), pure 0⟩
    | .self => ⟨look fun _ => 0, look fun _ => 0⟩
    | .dot object property =>
      ⟨object.2.value.bind fun b => look (·.heap b property), object.2.value.bind pure⟩
    | .number (.whole n) => ⟨pure n.toNat, pure 0⟩
    | .sequence items =>
      ⟨match items.getLast? with
        | some last => last.2.value.after (items.dropLast.map fun item => item.2.value)
        | none => Evaluation.pure 0, pure 0⟩
    | .assign operator left right =>
      ⟨left.2.base.bind fun b =>
        (if operator = "=" then pure 0 else load left.1 b).bind fun old =>
          right.2.value.bind fun v => store operator left.1 b old v, pure 0⟩
    | _ => ⟨pure 0, pure 0⟩

def run (n : Node) : Execution Memory Nat :=
  match n.form with
  | .simple e => (sense e).value.exec fun _ => done .normal
  | _ => done .normal

end Memory

/-- The semantics of assignments on a store. -/
def storing : AssignmentSemantics Memory Nat where
  undefined := 0
  receiver _ := 0
  eval n := (Memory.sense n).value
  run := Memory.run
  base n := (Memory.sense n).base
  coerce := pure
  load := Memory.load
  store := Memory.store
  simple_law _ _ := rfl
  sequence_law line leading last _ := by
    rw [Memory.sense, Node.foldUp_mk]
    simp [Form.map, Function.comp_def]
  self_law _ := rfl
  receiver_law _ _ _ _ _ := rfl
  base_symbol _ _ := rfl
  base_self _ := rfl
  base_dot line object property := by
    rw [Memory.sense, Node.foldUp_mk]
    rfl
  coerce_receiver _ := rfl
  load_self _ _ := rfl
  assign_law line operator left right _ := by
    rw [Memory.sense, Node.foldUp_mk]
    rfl

/-- In a given state an evaluation has exactly one end, with a value. -/
def Evaluation.Gives {State Value : Type} (e : Evaluation State Value) (σ : State) (v : Value)
    (τ : State) : Prop :=
  ∀ o ρ, e σ o ρ ↔ o = .value v ∧ ρ = τ

namespace Evaluation.Gives

variable {State Value : Type} {e : Evaluation State Value} {σ ρ τ : State} {v w : Value}

theorem bind (h : e.Gives σ v ρ) {k : Value → Evaluation State Value}
    (hk : (k v).Gives ρ w τ) : (e.bind k).Gives σ w τ := by
  intro o π
  refine ⟨?_, fun ho => .inl ⟨v, ρ, (h _ _).2 ⟨rfl, rfl⟩, (hk _ _).2 ho⟩⟩
  rintro (⟨u, α, he, hu⟩ | ⟨u, he, -⟩)
  · obtain ⟨⟨⟩, rfl⟩ := (h _ _).1 he
    exact (hk _ _).1 hu
  · cases ((h _ _).1 he).1

theorem exec (h : e.Gives σ v ρ) (k : Value → Execution State Value) :
    e.exec k σ = k v ρ := by
  funext c τ
  refine propext ⟨?_, fun hk => .inl ⟨v, ρ, (h _ _).2 ⟨rfl, rfl⟩, hk⟩⟩
  rintro (⟨u, α, he, hk⟩ | ⟨u, he, -⟩)
  · obtain ⟨⟨⟩, rfl⟩ := (h _ _).1 he
    exact hk
  · cases ((h _ _).1 he).1

theorem pure (v : Value) (σ : State) : (Evaluation.pure v).Gives σ v σ :=
  fun _ _ => Iff.rfl

theorem look (f : State → Value) (σ : State) : (Evaluation.look f).Gives σ (f σ) σ :=
  fun _ _ => Iff.rfl

end Evaluation.Gives

namespace Memory

/-- All variables are the object `0`, and all properties of an object the object itself. -/
def start : Memory where
  scope _ := 0
  heap object _ := object

variable {σ ρ τ : Memory} {operator : String} {left right object : Node} {b old v w : Nat}

theorem gives_assign (line : Option Nat) (hs : Normal.isSettledTarget left = true)
    (hbase : (sense left).base.Gives σ b σ) (hold : (load left b).Gives σ old σ)
    (hright : (sense right).value.Gives σ v ρ)
    (hstore : (store operator left b (if operator = "=" then 0 else old) v).Gives ρ w τ) :
    (sense (.mk line (.assign operator left right))).value.Gives σ w τ := by
  have hlaw := storing.assign_law line operator left right hs
  simp only [storing] at hlaw
  rw [hlaw]
  refine hbase.bind (Gives.bind ?_ (hright.bind hstore))
  split_ifs
  · exact Gives.pure _ _
  · exact hold

theorem gives_symbol (line : Option Nat) (s : Symbol) (σ : Memory) :
    (sense (.mk line (.symbol s))).value.Gives σ (σ.scope s.name) σ :=
  Gives.look _ σ

theorem gives_self (line : Option Nat) (σ : Memory) :
    (sense (.mk line .self)).value.Gives σ 0 σ :=
  Gives.look (fun _ => 0) σ

theorem gives_dot (line : Option Nat) (hobject : (sense object).value.Gives σ b σ)
    (property : String) :
    (sense (.mk line (.dot object property))).value.Gives σ (σ.heap b property) σ := by
  rw [sense, Node.foldUp_mk]
  exact hobject.bind (Gives.look _ _)

theorem gives_base_dot (line : Option Nat) (hobject : (sense object).value.Gives σ b σ)
    (property : String) :
    (sense (.mk line (.dot object property))).base.Gives σ b σ := by
  rw [sense, Node.foldUp_mk]
  exact hobject.bind (Gives.pure _ _)

/-- A literal. -/
def numeral (n : Nat) : Node :=
  .mk none (.number (.whole n))

theorem gives_numeral (n : Nat) (σ : Memory) : (sense (numeral n)).value.Gives σ n σ :=
  Gives.pure n σ

theorem shaped_numeral (n : Nat) : Normal.WellShaped .expression (numeral n) :=
  .mk rfl trivial nofun

theorem shaped_assign (line : Option Nat) (hleft : Normal.WellShaped .expression left)
    (hright : Normal.WellShaped .expression right) :
    Normal.WellShaped .expression (.mk line (.assign operator left right)) := by
  refine .mk rfl trivial fun p hp => ?_
  obtain rfl | rfl : p = (.expression, left) ∨ p = (.expression, right) := by
    simpa [Form.parts] using hp
  · exact hleft
  · exact hright

theorem shaped_sequence (line : Option Nat) {items : List Node} (hlen : 2 ≤ items.length)
    (hall : ∀ x ∈ items, Normal.WellShaped .expression x) :
    Normal.WellShaped .expression (.mk line (.sequence items)) := by
  refine .mk (decide_eq_true hlen) trivial fun p hp => ?_
  obtain ⟨x, hx, rfl⟩ := List.mem_map.1 hp
  exact hall x hx

/-- An expression that, at the start, moves the object of a property from `0` to `1`, and leaves
nothing large in the objects. -/
structure Nudge (object e : Node) (σ : Memory) : Prop where
  shaped : Normal.WellShaped .expression e
  gives : (sense e).value.Gives start 1 σ
  object_start : (sense object).value.Gives start 0 start
  object_end : (sense object).value.Gives σ 1 σ
  heap_zero : ∀ property, σ.heap 0 property ≤ 1
  heap_one : ∀ property, σ.heap 1 property = 1

theorem gives_assign_symbol (line : Option Nat) {s : Symbol} (hs : s.role = .reference) :
    (sense (.mk none (.assign "=" (.mk line (.symbol s)) (numeral 1)))).value.Gives start 1
      (start.setVariable s.name 1) :=
  gives_assign none (by simp [Normal.isSettledTarget, Node.foldUp_mk, hs, Form.map]) (Gives.pure 0 _)
    (Gives.look _ _) (gives_numeral 1 _) fun _ _ => Iff.rfl

theorem gives_assign_own (line l : Option Nat) (property : String) :
    (sense (.mk none (.assign "=" (.mk line (.dot (.mk l .self) property)) (numeral 1)))).value.Gives
      start 1 (start.setProperty 0 property 1) :=
  gives_assign none (by rw [Normal.isSettledTarget_dot]; rfl)
    (gives_base_dot line (gives_self l start) property) (Gives.look _ _) (gives_numeral 1 _)
    fun _ _ => Iff.rfl

theorem exists_nudge (hshaped : Normal.WellShaped .expression object)
    (hs : Normal.isSettledTarget object = true) (hself : Normal.isSelf object.form = false) :
    ∃ e σ, Nudge object e σ := by
  induction object using Node.induct with
  | step line form ih =>
    cases form with
    | symbol s =>
      have hrole : s.role = .reference := by
        simpa [Normal.isSettledTarget, Node.foldUp_mk, Form.map] using hs
      exact ⟨_, _,
        { shaped := shaped_assign none hshaped (shaped_numeral 1)
          gives := gives_assign_symbol line hrole
          object_start := gives_symbol line s start
          object_end := by
            simpa [setVariable] using gives_symbol line s (start.setVariable s.name 1)
          heap_zero := fun _ => Nat.zero_le 1
          heap_one := fun _ => rfl }⟩
    | dot inner property =>
      rw [Normal.isSettledTarget_dot] at hs
      have hinner : Normal.WellShaped .expression inner := hshaped.part (.head _)
      by_cases hi : Normal.isSelf inner.form = true
      · obtain ⟨l, form⟩ := inner
        cases form with
        | self =>
          refine ⟨_, _,
            { shaped := shaped_assign none hshaped (shaped_numeral 1)
              gives := gives_assign_own line l property
              object_start := gives_dot line (gives_self l start) property
              object_end := ?_
              heap_zero := fun q => ?_
              heap_one := fun q => ?_ }⟩
          · simpa [setProperty] using
              gives_dot line (gives_self l (start.setProperty 0 property 1)) property
          · by_cases hq : q = property <;> simp [setProperty, start, hq]
          · simp [setProperty, start]
        | _ => cases hi
      · obtain ⟨e, σ, h⟩ := ih inner (.head _) hinner hs (by simpa using hi)
        refine ⟨e, σ, { h with object_start := ?_, object_end := ?_ }⟩
        · exact gives_dot line h.object_start property
        · simpa [h.heap_one] using gives_dot line h.object_end property
    | self => cases hself
    | loose => cases hshaped.regular
    | _ =>
      rw [Normal.isSettledTarget, Node.foldUp_mk] at hs
      cases hs

end Memory

end BigStep

namespace Normal

open BigStep Evaluation Execution Memory

variable {operator : String} {left object e : Node} {σ τ : Memory} {line : Option Nat}

theorem runAll_ne_run {b old b' old' w w' : Nat} {τ' : Memory}
    (hs : isSettledTarget left = true)
    (hshaped : WellShaped .expression e) (he : (sense e).value.Gives start 1 σ)
    (hbase : (sense left).base.Gives start b start) (hold : (load left b).Gives start old start)
    (hstore : (store operator left b (if operator = "=" then 0 else old) 5).Gives σ w τ)
    (hbase' : (sense left).base.Gives σ b' σ) (hold' : (load left b').Gives σ old' σ)
    (hstore' : (store operator left b' (if operator = "=" then 0 else old') 5).Gives σ w' τ')
    (hne : τ ≠ τ') :
    storing.runAll ([e].map Node.asStatement ++ [assignment none none operator left (numeral 5)]) ≠
      storing.run
        (assignment none none operator left (.mk none (.sequence ([e] ++ [numeral 5])))) := by
  intro heq
  apply hne
  have hright : (sense (.mk none (.sequence ([e] ++ [numeral 5])))).value.Gives start 5 σ := by
    have hlaw := storing.sequence_law none [e] (numeral 5) (by simp)
    simp only [storing] at hlaw
    rw [hlaw]
    exact he.bind (gives_numeral 5 σ)
  have hwhole := (gives_assign none hs hbase hold hright hstore).exec fun _ => done .normal
  have hlast := gives_assign none hs hbase' hold' (gives_numeral 5 σ) hstore'
  have hsplit := (he.bind (k := fun _ => _) hlast).exec fun _ => done .normal
  rw [assignment, runAll_asStatement none (by simpa using hshaped), assignment,
    storing.simple_law] at heq
  have hend : done (.normal : Completion Nat) τ' = done .normal τ := by
    rw [← hwhole, ← hsplit]
    exact congrFun heq start
  exact ((iff_of_eq (congrFun (congrFun hend .normal) τ)).2 ⟨rfl, rfl⟩).2

theorem exists_runAll_ne_run (hleft : WellShaped .expression left)
    (hs : isSettledTarget left = true) (h : isSteady operator left = false) :
    ∃ e, WellShaped .expression e ∧
      storing.runAll
          ([e].map Node.asStatement ++ [assignment none none operator left (numeral 5)]) ≠
        storing.run
          (assignment none none operator left (.mk none (.sequence ([e] ++ [numeral 5])))) := by
  obtain ⟨line, form⟩ := left
  cases form with
  | symbol s =>
    have hop : operator ≠ "=" := by simpa [isSteady, Node.form] using h
    have hrole : s.role = .reference := by
      simpa [isSettledTarget, Node.foldUp_mk, Form.map] using hs
    -- The name is set before it is read: `1 + 5` in place of `0 + 5`.
    refine ⟨_, shaped_assign none hleft (shaped_numeral 1), runAll_ne_run hs
      (shaped_assign none hleft (shaped_numeral 1))
      (gives_assign_symbol line hrole) (Gives.pure 0 _) (gives_symbol line s _)
      (fun _ _ => Iff.rfl) (Gives.pure 0 _) (gives_symbol line s _) (fun _ _ => Iff.rfl)
      fun heq => ?_⟩
    simpa [combine, hop, start, setVariable] using congrArg (fun σ => σ.scope s.name) heq
  | dot object property =>
    have hobject : WellShaped .expression object := hleft.part (.head _)
    have hso := hs
    rw [isSettledTarget_dot] at hso
    by_cases hself : isSelf object.form = true
    · have hop : operator ≠ "=" := by
        rintro rfl
        exact absurd hself (Bool.eq_false_iff.1 h)
      obtain ⟨l, form⟩ := object
      cases form with
      | self =>
        refine ⟨_, shaped_assign none hleft (shaped_numeral 1), runAll_ne_run hs
          (shaped_assign none hleft (shaped_numeral 1))
          (gives_assign_own line l property) (gives_base_dot line (gives_self l _) property)
          (Gives.look _ _) (fun _ _ => Iff.rfl) (gives_base_dot line (gives_self l _) property)
          (Gives.look _ _) (fun _ _ => Iff.rfl) fun heq => ?_⟩
        simpa [combine, hop, start, setProperty] using
          congrArg (fun σ => σ.heap 0 property) heq
      | _ => cases hself
    · -- The property of another object is set, and that of `0` stays small.
      obtain ⟨e, σ, hn⟩ := exists_nudge hobject hso (by simpa using hself)
      refine ⟨e, hn.shaped, runAll_ne_run hs hn.shaped hn.gives
        (gives_base_dot line hn.object_start property)
        (Gives.look _ _) (fun _ _ => Iff.rfl) (gives_base_dot line hn.object_end property)
        (Gives.look _ _) (fun _ _ => Iff.rfl) fun heq => ?_⟩
      have hzero := hn.heap_zero property
      have hfive : 5 = σ.heap 0 property := by
        simpa [combine, start, setProperty] using congrArg (fun σ => σ.heap 0 property) heq
      omega
  | self => cases h
  | loose => cases hleft.regular
  | _ =>
    rw [isSettledTarget, Node.foldUp_mk] at hs
    cases hs

/-- An assignment with a sequence on the right means the same when it is split, whatever the
expressions do, exactly if nothing of its target can change. -/
theorem run_splitAssignment?_iff (hleft : WellShaped .expression left)
    (hs : isSettledTarget left = true) :
    (∀ (State Value : Type) (S : AssignmentSemantics State Value) (line inner l : Option Nat)
        (items : List Node), WellShaped .expression (.mk l (.sequence items)) →
      ∃ parts,
        splitAssignment? (assignment line inner operator left (.mk l (.sequence items))) =
          some parts ∧
        S.runAll parts = S.run (assignment line inner operator left (.mk l (.sequence items)))) ↔
      isSteady operator left = true := by
  refine ⟨fun h => ?_, fun h State Value S line inner l items hitems => ?_⟩
  · by_contra hsteady
    obtain ⟨e, he, hne⟩ := exists_runAll_ne_run hleft hs (Bool.eq_false_iff.2 hsteady)
    have hall : ∀ x ∈ [e] ++ [numeral 5], WellShaped .expression x := by
      simpa using ⟨he, shaped_numeral 5⟩
    obtain ⟨parts, hparts, hrun⟩ := h Memory Nat storing none none none ([e] ++ [numeral 5])
      (shaped_sequence none (by simp) hall)
    rw [splitAssignment?_assignment hs hall, Option.some.injEq] at hparts
    exact hne (hparts ▸ hrun)
  · obtain ⟨leading, last, rfl, hne, -⟩ := exists_items hitems.tidy
    have hall : ∀ x ∈ leading ++ [last], WellShaped .expression x := fun x hx =>
      hitems.part (List.mem_map_of_mem hx)
    exact ⟨_, splitAssignment?_assignment hs hall, runAll_of_isSteady hs
      (fun x hx => hall x (List.mem_append_left _ hx)) hne h⟩

/-- The name `a`. -/
def nameA : Node :=
  .mk none (.symbol ⟨.reference, "a", none, none⟩)

/-- `a = 1, 5`. -/
def settingA : Node :=
  .mk none (.sequence ([.mk none (.assign "=" nameA (numeral 1))] ++ [numeral 5]))

theorem shaped_nameA : WellShaped .expression nameA :=
  .mk rfl trivial nofun

theorem shaped_setNameA : WellShaped .expression (.mk none (.assign "=" nameA (numeral 1))) :=
  shaped_assign none shaped_nameA (shaped_numeral 1)

/-- On a store, `a = (a = 1, 5)` ends like `a = 1; a = 5`. -/
theorem run_splitAssignment?_name :
    isSteady "=" nameA = true ∧
      ∃ parts, splitAssignment? (assignment none none "=" nameA settingA) = some parts ∧
        storing.runAll parts = storing.run (assignment none none "=" nameA settingA) := by
  refine ⟨rfl, (run_splitAssignment?_iff shaped_nameA rfl).2 rfl _ _ storing _ _ _ _
    (shaped_sequence none (by simp) ?_)⟩
  simpa using ⟨shaped_setNameA, shaped_numeral 5⟩

/-- `a.b = (a = 1, 5)` sets the property of another object than `a = 1; a.b = 5`. -/
theorem runAll_ne_run_property :
    ∃ parts,
      splitAssignment? (assignment none none "=" (.mk none (.dot nameA "b")) settingA) =
        some parts ∧
      storing.runAll parts ≠
        storing.run (assignment none none "=" (.mk none (.dot nameA "b")) settingA) := by
  refine ⟨_, splitAssignment?_assignment rfl (by simpa using ⟨shaped_setNameA, shaped_numeral 5⟩),
    runAll_ne_run rfl shaped_setNameA (gives_assign_symbol none rfl)
      (gives_base_dot none (gives_symbol none _ _) "b") (Gives.look _ _) (fun _ _ => Iff.rfl)
      (gives_base_dot none (gives_symbol none _ _) "b") (Gives.look _ _) (fun _ _ => Iff.rfl)
      fun heq => ?_⟩
  simpa [combine, start, setProperty, setVariable] using congrArg (fun σ => σ.heap 0 "b") heq

end Normal

end Debundle
