import Debundle.Proofs.Reading.Shape

/-!
# Faults of a derivation

A rule fails on the values of its parts only if a literal or a key has no value, if the head of a
`for` is not an `in`, or if an accessor begins with another word than `get` and `set`
(`apply_cases`). Whether a derivation has a tree can so be told from the faults at its rules
(`value_cases`): the first one, in the order of the text, is the one that is reported.
-/
namespace Debundle

namespace Build

/-- The fault of a literal or a key, if it has no value. -/
def faultOf {α : Type} : Result α → Option Fault
  | .ok _ => none
  | .error fault => some fault

/-- Whether the head of a `for` is an `in`. -/
def isIn : Node → Bool
  | .mk _ (.binary operator _ _) => operator = "in"
  | _ => false

/-- The fault of a rule on the values of its parts. -/
def fault? (label : Label) (first : Option Token) (vs : List Value) : Option Fault :=
  match label, vs with
  | .number, [.token t] => faultOf (literal .number (Literal.number t.text))
  | .string, [.token t] => faultOf (literal .string (Literal.string t.text))
  | .keyValue, .token key :: _ => faultOf (propertyKey .keyValue key)
  | .accessor, .token word :: .token key :: _ =>
    if word.text = "get" || word.text = "set" then faultOf (propertyKey .accessor key)
    else some (.strayWord word.text word.line word.column)
  | .forIn, _ :: _ :: .node header :: _ =>
    if isIn header then none else first.map fun t => .forHeader t.line t.column
  | _, _ => none

/-- A rule makes a value of its parts, or has a fault. -/
def Total (r : Rule) : Prop :=
  ∀ (first : Option Token) (vs : List Value),
    List.Forall₂ (fun s => Value.Has (fun _ => True) (.ofSymbol s)) r.body vs →
    (r.label = .forIn → first.isSome = true) →
    match fault? r.label first vs with
    | none => ∃ v, apply r.label first vs = .ok v
    | some fault => apply r.label first vs = .error fault

variable {r : Rule}

theorem total_of_givenAll
    (h : ∀ first : Option Token, (r.label = .forIn → first.isSome = true) →
      GivenAll (fun _ => True) r.body fun vs =>
        match fault? r.label first vs with
        | none => ∃ v, apply r.label first vs = .ok v
        | some fault => apply r.label first vs = .error fault) : Total r :=
  fun first _ hvs hfirst => (h first hfirst).of_has hvs

theorem total_of_isPlain (h : isPlain r = true) : Total r := by
  intro first vs hvs hfirst
  clear hfirst
  obtain ⟨head, body, label⟩ := r
  unfold isPlain at h
  dsimp only at h hvs ⊢
  split at h
  · rename_i s
    obtain ⟨w, rfl, -⟩ : ∃ w, vs = [w] ∧ w.Has (fun _ => True) (.ofSymbol s) := by
      simpa [List.forall₂_cons_left_iff, and_comm] using hvs
    exact ⟨w, rfl⟩
  · rename_i t
    obtain ⟨w, rfl, token, rfl, -⟩ : ∃ w, vs = [w] ∧ w.Has (fun _ => True) (.token t) := by
      simpa [List.forall₂_cons_left_iff, and_comm, Sense.ofSymbol] using hvs
    exact ⟨_, rfl⟩
  · exact ⟨_, rfl⟩
  · exact ⟨_, rfl⟩
  · cases h

theorem total_statementRules : ∀ r ∈ Rule.statementRules, Total r := by
  have plain : ∀ r ∈ Rule.statementRules.drop 2, isPlain r = true := by decide
  intro r hr
  obtain rfl | rfl | hr : r = _ ∨ r = _ ∨ r ∈ Rule.statementRules.drop 2 := by
    simpa [Rule.statementRules] using hr
  · exact fun _ _ _ _ => ⟨_, rfl⟩
  · exact fun _ _ _ _ => ⟨_, rfl⟩
  · exact total_of_isPlain (plain r hr)

theorem total_builtRules : ∀ rules ∈ [Rule.plainRules, Rule.clauseRules, Rule.functionRules,
    Rule.accessRules, Rule.listRules], ∀ r ∈ rules, Total r := by
  unfold Rule.plainRules Rule.clauseRules Rule.functionRules Rule.accessRules Rule.listRules
  simp only [List.forall_mem_cons]
  repeat' apply And.intro
  all_goals first | exact total_of_isPlain rfl | exact List.forall_mem_nil _ | skip
  all_goals
    refine total_of_givenAll fun first hfirst => ?_
    dsimp only [GivenAll, Sense.Given, Sense.ofSymbol, Sense.ofNonterminal, Rule.t, Rule.n]
    intros
    first | exact ⟨_, rfl⟩ | simp [fault?, apply.eq_def]

theorem isIn_eq_true_iff {n : Node} :
    isIn n = true ↔ ∃ line left right, n = .mk line (.binary "in" left right) := by
  unfold isIn
  split
  · simp
  · rename_i hno
    simp only [Bool.false_eq_true, false_iff]
    rintro ⟨line, left, right, rfl⟩
    exact hno _ _ _ _ rfl

theorem apply_forIn_cases (t a b c : Token) (header body : Node) :
    match fault? .forIn (some t) [.token a, .token b, .node header, .token c, .node body] with
    | none => ∃ v, apply .forIn (some t) [.token a, .token b, .node header, .token c, .node body] =
        .ok v
    | some fault => apply .forIn (some t)
        [.token a, .token b, .node header, .token c, .node body] = .error fault := by
  simp only [apply.eq_def, nodesOf_token, nodesOf_node, nodesOf_nil]
  by_cases h : isIn header = true
  · obtain ⟨line, left, right, rfl⟩ := isIn_eq_true_iff.1 h
    exact ⟨_, rfl⟩
  · simp only [fault?, if_neg h, Option.map_some]
    split
    · rename_i heq
      cases heq
      exact absurd rfl h
    · rename_i hsome _
      cases hsome
      rfl
    · rename_i hnone _
      cases hnone

theorem total_controlRules : ∀ r ∈ Rule.controlRules, Total r := by
  unfold Rule.controlRules
  simp only [List.forall_mem_cons]
  refine ⟨?_, ?_, ?_, ?_, ?_, ?_, ?_, ?_, ?_, ?_, ?_, ?_, ?_, ?_, ?_, ?_, ?_, List.forall_mem_nil _⟩ <;>
    refine total_of_givenAll fun first hfirst => ?_
  all_goals
    dsimp only [GivenAll, Sense.Given, Sense.ofSymbol, Sense.ofNonterminal, Rule.t, Rule.n]
    intros
  case refine_16 =>
    obtain ⟨t, rfl⟩ := Option.isSome_iff_exists.1 (hfirst rfl)
    exact apply_forIn_cases ..
  all_goals simp [fault?, apply.eq_def, optional]

theorem total_operatorRules : ∀ r ∈ Rule.operatorRules, Total r := by
  have sequence : ∀ (first : Option Token) (a : Token) (left right : Node),
      ∃ v, apply .sequence first [.node left, .token a, .node right] = .ok v := by
    intro first a left right
    rw [apply.eq_def]
    dsimp only
    split <;> exact ⟨_, rfl⟩
  unfold Rule.operatorRules
  simp only [List.forall_mem_cons]
  repeat' apply And.intro
  all_goals first | exact total_of_isPlain rfl | exact List.forall_mem_nil _ | skip
  all_goals
    refine total_of_givenAll fun first hfirst => ?_
    dsimp only [GivenAll, Sense.Given, Sense.ofSymbol, Sense.ofNonterminal, Rule.t, Rule.n]
    intros
  iterate 2 exact sequence ..
  all_goals simp [fault?, apply.eq_def]

theorem map_cases {α : Type} (x : Result α) (f : α → Value) :
    match faultOf x with
    | none => ∃ v, x.map f = .ok v
    | some fault => x.map f = .error fault := by
  cases x with
  | ok a => exact ⟨_, rfl⟩
  | error fault => rfl

theorem apply_accessor_cases (first : Option Token) (a word key c : Token)
    (parameters body : List Value) :
    match fault? .accessor first
        [.token word, .token key, .token a, .list parameters, .token c, .list body] with
    | none => ∃ v, apply .accessor first
        [.token word, .token key, .token a, .list parameters, .token c, .list body] = .ok v
    | some fault => apply .accessor first
        [.token word, .token key, .token a, .list parameters, .token c, .list body] =
          .error fault := by
  simp only [apply.eq_def, fault?]
  by_cases hget : word.text = "get"
  · simp only [hget, decide_true, Bool.true_or, if_true]
    exact map_cases _ _
  · by_cases hset : word.text = "set"
    · simp only [hset, decide_true, Bool.or_true, if_true]
      exact map_cases _ _
    · simp [hget, hset]

theorem total_primaryRules : ∀ r ∈ Rule.primaryRules, Total r := by
  unfold Rule.primaryRules
  simp only [List.forall_mem_cons]
  repeat' apply And.intro
  all_goals first | exact total_of_isPlain rfl | exact List.forall_mem_nil _ | skip
  all_goals
    refine total_of_givenAll fun first hfirst => ?_
    dsimp only [GivenAll, Sense.Given, Sense.ofSymbol, Sense.ofNonterminal, Rule.t, Rule.n]
    intros
    first
    | exact apply_accessor_cases ..
    | exact map_cases _ _
    | simp [fault?, apply.eq_def]

theorem apply_cases {i : Nat} (h : Rule.all[i]? = some r) : Total r :=
  forall_rules total_statementRules (total_builtRules _ (by simp)) total_controlRules
    (total_builtRules _ (by simp)) (total_builtRules _ (by simp)) total_operatorRules
    (total_builtRules _ (by simp)) total_primaryRules (total_builtRules _ (by simp)) h

end Build

namespace Derivation

open Build

/-- Whether the head of a `for`, as a tree, is an `in`. -/
def headsIn (d : Derivation) : Bool :=
  match value d with
  | .ok (.node n, _) => isIn n
  | _ => false

/-- The fault at a rule itself. -/
def ownFault? (label : Label) (parts : List Derivation) : Option Fault :=
  match label, parts with
  | .number, [.leaf t] => faultOf (literal .number (Literal.number t.text))
  | .string, [.leaf t] => faultOf (literal .string (Literal.string t.text))
  | .keyValue, .node _ [.leaf key] :: _ => faultOf (propertyKey .keyValue key)
  | .accessor, .leaf word :: .node _ [.leaf key] :: _ =>
    if word.text = "get" || word.text = "set" then faultOf (propertyKey .accessor key)
    else some (.strayWord word.text word.line word.column)
  | .forIn, .leaf t :: _ :: header :: _ =>
    if headsIn header then none else some (.forHeader t.line t.column)
  | _, _ => none

mutual

/-- The faults of a derivation, in the order of the text. -/
def faults : Derivation → List Fault
  | .leaf _ => []
  | .node i parts =>
    faultsAll parts ++ ((Rule.all[i]?).bind fun r => ownFault? r.label parts).toList

def faultsAll : List Derivation → List Fault
  | [] => []
  | d :: ds => faults d ++ faultsAll ds

end

/-- The rules that can have a fault. -/
def bodyOf : Label → Option (List GrammarSymbol)
  | .number => some [.terminal .number]
  | .string => some [.terminal .string]
  | .keyValue => some [.nonterminal .propertyKey, .terminal .colon, .nonterminal .assignment]
  | .accessor => some [.terminal .name, .nonterminal .propertyKey, .terminal .lparen,
      .nonterminal .parameters, .terminal .rparen, .nonterminal .functionBody]
  | .forIn => some [.terminal .kwFor, .terminal .lparen, .nonterminal .expression,
      .terminal .rparen, .nonterminal .statement]
  | _ => none

theorem bodyOf_all : Rule.all.toList.all (fun r =>
    ((bodyOf r.label).all fun body => body = r.body) &&
      (r.head != .propertyKey || r.label = .pass && r.body.length = 1 && r.body.all fun
        | .terminal _ => true
        | .nonterminal _ => false)) = true := by
  decide

theorem body_of_bodyOf {i : Nat} {r : Rule} {body : List GrammarSymbol}
    (hr : Rule.all[i]? = some r) (hb : bodyOf r.label = some body) : r.body = body := by
  have hmem : r ∈ Rule.all.toList := Array.mem_toList_iff.2 (Array.mem_of_getElem? hr)
  have h := List.all_eq_true.1 bodyOf_all r hmem
  simp only [hb, Option.all_some, Bool.and_eq_true, decide_eq_true_eq] at h
  exact h.1.symm

theorem exists_leaf_of_derives {t : Terminal} {d : Derivation} (h : Derives (.terminal t) d) :
    ∃ a : Token, d = .leaf a := by
  cases h with
  | leaf a => exact ⟨a, rfl⟩

theorem exists_key_of_derives {d : Derivation} (h : Derives (.nonterminal .propertyKey) d) :
    ∃ i key, d = .node i [.leaf key] ∧ value d = .ok (.token key, some key) := by
  generalize hs : GrammarSymbol.nonterminal .propertyKey = s at h
  cases h with
  | leaf => cases hs
  | @node i r parts hr hall =>
    have hhead : r.head = .propertyKey := (GrammarSymbol.nonterminal.inj hs).symm
    have hmem : r ∈ Rule.all.toList := Array.mem_toList_iff.2 (Array.mem_of_getElem? hr)
    have htest := (Bool.and_eq_true_iff.1 (List.all_eq_true.1 bodyOf_all r hmem)).2
    simp only [hhead, bne_self_eq_false, Bool.false_or, Bool.and_eq_true, decide_eq_true_eq] at htest
    obtain ⟨⟨hlabel, hlen⟩, hterminal⟩ := htest
    obtain ⟨x, hbody⟩ := List.length_eq_one_iff.1 hlen
    rw [hbody] at hall hterminal
    obtain ⟨d, rest, hd, hrest, rfl⟩ := List.forall₂_cons_left_iff.1 hall
    obtain rfl := List.forall₂_nil_left_iff.1 hrest
    cases x with
    | nonterminal => simp at hterminal
    | terminal t =>
      obtain ⟨key, rfl⟩ := exists_leaf_of_derives hd
      refine ⟨i, key, rfl, (value_node_eq_ok_iff hr).2
        ⟨[(.token key, some key)], .cons rfl .nil, rfl, ?_⟩⟩
      rw [hlabel]
      rfl

theorem fault?_eq_ownFault? {i : Nat} {r : Rule} {parts : List Derivation}
    {ps : List (Value × Option Token)} (hr : Rule.all[i]? = some r)
    (hall : List.Forall₂ Derives r.body parts)
    (hps : List.Forall₂ (fun d p => value d = .ok p) parts ps) :
    fault? r.label (ps.findSome? Prod.snd) (ps.map Prod.fst) = ownFault? r.label parts ∧
      (r.label = .forIn → (ps.findSome? Prod.snd).isSome = true) := by
  cases hb : bodyOf r.label with
  | none =>
    have hother : ∀ label : Label, bodyOf label = none → ∀ first vs ds,
        fault? label first vs = none ∧ ownFault? label ds = none ∧ label ≠ .forIn := by
      intro label hlabel first vs ds
      cases label <;> first | exact ⟨rfl, rfl, nofun⟩ | cases hlabel
    obtain ⟨hf, ho, hne⟩ := hother r.label hb (ps.findSome? Prod.snd) (ps.map Prod.fst) parts
    exact ⟨hf.trans ho.symm, fun h => absurd h hne⟩
  | some body =>
    rw [body_of_bodyOf hr hb] at hall
    generalize r.label = label at hb
    cases label <;> first | (exfalso; cases hb; done) | skip
    all_goals
      obtain rfl := Option.some.inj hb
      obtain ⟨d, parts, hd, hall₁, rfl⟩ := List.forall₂_cons_left_iff.1 hall
      obtain ⟨p, ps, hp, hps₁, rfl⟩ := List.forall₂_cons_left_iff.1 hps
    case forIn =>
      obtain ⟨t, rfl⟩ := exists_leaf_of_derives hd
      cases hp
      obtain ⟨d, parts, -, hall₂, rfl⟩ := List.forall₂_cons_left_iff.1 hall₁
      obtain ⟨p, ps, -, hps₂, rfl⟩ := List.forall₂_cons_left_iff.1 hps₁
      obtain ⟨header, parts, hheader, -, rfl⟩ := List.forall₂_cons_left_iff.1 hall₂
      obtain ⟨⟨v, first⟩, ps, hv, -, rfl⟩ := List.forall₂_cons_left_iff.1 hps₂
      obtain ⟨n, rfl, -⟩ := has_value (T := fun _ => True) hheader (fun _ _ => trivial) v first hv
      refine ⟨?_, fun _ => rfl⟩
      simp [fault?, ownFault?, headsIn, hv]
    all_goals refine ⟨?_, nofun⟩
    case accessor =>
      obtain ⟨word, rfl⟩ := exists_leaf_of_derives hd
      cases hp
      obtain ⟨d, parts, hkeyed, -, rfl⟩ := List.forall₂_cons_left_iff.1 hall₁
      obtain ⟨p, ps, hp, -, rfl⟩ := List.forall₂_cons_left_iff.1 hps₁
      obtain ⟨i, key, rfl, hkey⟩ := exists_key_of_derives hkeyed
      cases hkey.symm.trans hp
      rfl
    case keyValue =>
      obtain ⟨i, key, rfl, hkey⟩ := exists_key_of_derives hd
      cases hkey.symm.trans hp
      rfl
    case number | string =>
      obtain ⟨t, rfl⟩ := exists_leaf_of_derives hd
      cases hp
      obtain rfl := List.forall₂_nil_left_iff.1 hall₁
      obtain rfl := List.forall₂_nil_left_iff.1 hps₁
      rfl

/-- What is known of the value of a derivation from its first fault. -/
def Reports (x : Result (Value × Option Token)) : Option Fault → Prop
  | none => ∃ p, x = .ok p
  | some fault => x = .error fault

theorem values_cases {parts : List Derivation}
    (h : ∀ d ∈ parts, Reports (value d) d.faults.head?) :
    match (faultsAll parts).head? with
    | none => ∃ ps, values parts = .ok ps
    | some fault => values parts = .error fault := by
  induction parts with
  | nil => exact ⟨[], rfl⟩
  | cons d ds ih =>
    rw [List.forall_mem_cons] at h
    have hd := h.1
    have hds := ih h.2
    rw [faultsAll]
    cases hf : d.faults with
    | cons fault more =>
      rw [hf] at hd
      have hd : value d = .error fault := hd
      simp only [List.cons_append, List.head?_cons]
      rw [values, hd]
      rfl
    | nil =>
      rw [hf] at hd
      obtain ⟨p, hp⟩ : ∃ p, value d = .ok p := hd
      rw [List.nil_append, values, hp]
      cases hg : faultsAll ds with
      | nil =>
        rw [hg] at hds
        obtain ⟨ps, hps⟩ : ∃ ps, values ds = .ok ps := hds
        exact ⟨p :: ps, by rw [hps]; rfl⟩
      | cons fault more =>
        rw [hg] at hds
        have hds : values ds = .error fault := hds
        simp only [List.head?_cons]
        rw [hds]
        rfl

theorem value_cases {s : GrammarSymbol} {d : Derivation} (h : Derives s d) :
    Reports (value d) d.faults.head? := by
  refine Derives.induct (motive := fun _ d => Reports (value d) d.faults.head?) ?_ ?_ h
  · exact fun token => ⟨_, rfl⟩
  · intro i r parts hr hall ih
    have hparts : ∀ d ∈ parts, Reports (value d) d.faults.head? := by
      clear hall hr
      generalize r.body = body at ih
      induction ih with
      | nil => nofun
      | cons hd _ ih => exact List.forall_mem_cons.2 ⟨hd, ih⟩
    have hvalues := values_cases hparts
    rw [faults, hr, Option.bind_some]
    cases hf : faultsAll parts with
    | cons fault more =>
      rw [hf] at hvalues
      have hvalues : values parts = .error fault := hvalues
      rw [List.cons_append, List.head?_cons, Reports, value, hvalues]
      rfl
    | nil =>
      rw [hf] at hvalues
      obtain ⟨ps, hps⟩ : ∃ ps, values parts = .ok ps := hvalues
      have hall₂ := values_eq_ok_iff.1 hps
      obtain ⟨heq, hfirst⟩ := fault?_eq_ownFault? hr hall hall₂
      have happly := apply_cases hr (ps.findSome? Prod.snd) (ps.map Prod.fst)
        (has_values (hall.imp fun s d hd => has_value hd) (fun _ _ => trivial) hall₂) hfirst
      rw [heq] at happly
      have hvalue : value (.node i parts) =
          (apply r.label (ps.findSome? Prod.snd) (ps.map Prod.fst)).map
            fun v => (v, ps.findSome? Prod.snd) := by
        rw [value, hps, hr]
        rfl
      rw [hvalue, List.nil_append]
      cases hown : ownFault? r.label parts with
      | none =>
        rw [hown] at happly
        obtain ⟨v, hv⟩ : ∃ v, apply r.label (ps.findSome? Prod.snd) (ps.map Prod.fst) = .ok v := happly
        exact ⟨_, by rw [hv]; rfl⟩
      | some fault =>
        rw [hown] at happly
        have happly : apply r.label (ps.findSome? Prod.snd) (ps.map Prod.fst) = .error fault := happly
        rw [happly]
        rfl

theorem tree_cases {d : Derivation} (h : Derives (.nonterminal .program) d) :
    match d.faults.head? with
    | none => ∃ t, tree d = .ok t
    | some fault => tree d = .error fault := by
  have hvalue := value_cases h
  cases hf : d.faults.head? with
  | none =>
    rw [hf] at hvalue
    obtain ⟨⟨v, first⟩, hv⟩ := hvalue
    obtain ⟨n, rfl, -⟩ := has_value (T := fun _ => True) h (fun _ _ => trivial) v first hv
    exact ⟨n, tree_eq_ok_iff.2 ⟨first, hv⟩⟩
  | some fault =>
    rw [hf] at hvalue
    have hvalue : value d = .error fault := hvalue
    rw [tree, hvalue]
    rfl

end Derivation

end Debundle
