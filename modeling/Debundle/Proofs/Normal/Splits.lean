import Debundle.Proofs.Normal.Bodies

/-!
# Splitting one statement

A statement is split at a slot that holds a sequence and is evaluated first (`Slot`), or at the
initial values of a declaration. Splitting lowers every cost of a tree in which a sequence costs
more than the statements that come of it, so a statement is split as long as possible
(`split?_of_mem_expand`).
-/
namespace Debundle

namespace Form

variable {α : Type}

def isUnary : Form α → Bool
  | unary .. => true
  | _ => false

/-- What a node itself adds to the weight of a tree. -/
def ownWeight : Form α → Nat
  | sequence items => items.length + 1
  | unary .. => 2
  | _ => 1

theorem one_le_ownWeight (form : Form α) : 1 ≤ form.ownWeight := by
  cases form <;> simp [ownWeight]

end Form

namespace Node

/-- The sum of what the nodes of a tree cost. -/
def total (own : Form Node → Nat) : Node → Nat :=
  foldChildren fun n below => own n.form + below.sum

theorem total_mk (own : Form Node → Nat) (line : Option Nat) (form : Form Node) :
    total own (.mk line form) = own form + (form.children.map (total own)).sum := by
  rw [total, foldChildren_mk, ← total]
  rfl

theorem weight_mk (line : Option Nat) (form : Form Node) :
    (Node.mk line form).weight = form.ownWeight + (form.children.map weight).sum := by
  rw [weight, foldUp_mk, ← weight]
  cases form <;> simp [Form.map, Form.children, Form.ownWeight, Function.comp_def,
    Option.toList_map, List.sum_eq_foldr]

theorem weight_lt_of_mem {line : Option Nat} {form : Form Node} {m : Node}
    (h : m ∈ form.children) : m.weight < (Node.mk line form).weight := by
  have hle : m.weight ≤ (form.children.map weight).sum :=
    List.le_sum_of_mem (List.mem_map_of_mem h)
  have := form.one_le_ownWeight
  rw [weight_mk]
  omega

theorem one_le_weight (n : Node) : 1 ≤ n.weight := by
  obtain ⟨line, form⟩ := n
  have := form.one_le_ownWeight
  rw [weight_mk]
  omega

theorem weight_eq_total (n : Node) : n.weight = n.total Form.ownWeight := by
  induction n using induct with
  | step line form ih =>
    rw [weight_mk, total_mk, List.map_congr_left ih]

end Node

/-- A cost by which every node that is no sequence and no unary operator costs one unit, a sequence
costs more than a unit for each of its items, and a unary operator two units. -/
structure IsCost (own : Form Node → Nat) (unit : Nat) : Prop where
  of_plain : ∀ form, form.isSequence = false → form.isUnary = false → own form = unit
  sequence : ∀ items, unit * items.length + 1 ≤ own (.sequence items)
  unary : ∀ operator operand, 2 * unit ≤ own (.unary operator operand)
  unit_le : unit ≤ 1

namespace Normal

/-- Where a statement has a slot whose expression is evaluated before all else: the statement
without the expression. -/
inductive Slot where
  | returned (line : Option Nat)
  | simple (line : Option Nat)
  | condition (line : Option Nat) (body : Node) (alternative : Option Node)
  | start (line : Option Nat) (test step : Option Node) (body : Node)
  | object (line : Option Nat) (body : Node)
  | subject (line : Option Nat) (branches : List Node)
  | assigned (line inner : Option Nat) (operator : String) (left : Node)

namespace Slot

/-- The statement with an expression in the slot. -/
def fill (x : Node) : Slot → Node
  | returned line => .mk line (.exit .returning (some x))
  | simple line => .mk line (.simple x)
  | condition line body alternative => .mk line (.ifElse x body alternative)
  | start line test step body => .mk line (.forLoop (some x) test step body)
  | object line body => .mk line (.withObject x body)
  | subject line branches => .mk line (.switch x branches)
  | assigned line inner operator left =>
    .mk line (.simple (.mk inner (.assign operator left x)))

/-- The target of an assignment has to be settled. -/
def isSettled : Slot → Bool
  | assigned _ _ _ left => isSettledTarget left
  | _ => true

end Slot

variable {P : Form Node → Prop} {c : Category} {n : Node} {line : Option Nat} {form : Form Node}
variable {own : Form Node → Nat} {unit : Nat}

theorem asStatement_of_tidy (h : Tidy P .expression n) :
    n.asStatement = .mk n.line (.simple n) := by
  have hf := h.fits
  obtain ⟨line, form⟩ := n
  cases form with
  | function kind => cases kind <;> first | rfl | cases hf
  | _ => first | rfl | cases hf

theorem lastOf_append {leading : List Node} {last : Node}
    (h : ∀ x ∈ leading ++ [last], Tidy P .expression x) :
    lastOf (leading ++ [last]) = .ok (leading.map Node.asStatement, last) := by
  unfold lastOf
  rw [listFault?_of_tidy h]
  simp

theorem hoist_append {leading : List Node} {last : Node} {hold : Node → Node}
    (h : ∀ x ∈ leading ++ [last], Tidy P .expression x) :
    hoist (leading ++ [last]) hold = leading.map Node.asStatement ++ [hold last] := by
  rw [hoist, lastOf_append h]

theorem exists_items {items : List Node} (h : Tidy P .expression (.mk line (.sequence items))) :
    ∃ leading last, items = leading ++ [last] ∧ leading ≠ [] ∧
      ∀ x ∈ leading ++ [last], Tidy P .expression x := by
  have hlen : 2 ≤ items.length := of_decide_eq_true (Form.isOf_of_fitsIn h.fits rfl)
  have hne : items ≠ [] := by
    rintro rfl
    simp at hlen
  refine ⟨items.dropLast, items.getLast hne, (List.dropLast_append_getLast hne).symm, ?_, ?_⟩
  · intro h0
    have := congrArg List.length h0
    simp at this
    omega
  · rw [List.dropLast_append_getLast hne]
    exact fun x hx => h.part (p := (.expression, x)) (by simp [Node.form, Form.parts, Form.many, hx])

/-! ## Statements that hold a sequence in a slot -/

theorem split?_eq (n : Node) :
    split? n = ((splitSlot? n).or (splitDeclaration? n)).or (splitAssignment? n) := by
  unfold split?
  cases splitSlot? n with
  | some parts => rfl
  | none =>
    cases splitDeclaration? n with
    | some parts => rfl
    | none => rfl

theorem split?_fill {slot : Slot} (hs : slot.isSettled = true) (l : Option Nat)
    {leading : List Node} {last : Node} (h : ∀ x ∈ leading ++ [last], Tidy P .expression x) :
    split? (slot.fill (.mk l (.sequence (leading ++ [last])))) =
      some (leading.map Node.asStatement ++ [slot.fill last]) := by
  cases slot with
  | assigned line inner operator left =>
    have hs : isSettledTarget left = true := hs
    rw [split?_eq]
    simp only [Slot.fill, splitSlot?, splitDeclaration?, splitAssignment?, hs, if_true,
      hoist_append h, Option.none_or]
  | _ =>
    rw [split?_eq]
    simp only [Slot.fill, splitSlot?, hoist_append h, Option.some_or]

/-- The first definition of a declaration that has a sequence for its value, if there is one. -/
def Initial.isSequence : Initial → Bool
  | sequence _ => true
  | _ => false

theorem initial_cases {d : Node} (h : Tidy P .definition d) :
    initial d = .plain ∨ ∃ line name l leading last,
      d = .mk line (.definition name (some (.mk l (.sequence (leading ++ [last]))))) ∧
      initial d = .sequence (leading ++ [last]) ∧ leading ≠ [] ∧
      ∀ x ∈ leading ++ [last], Tidy P .expression x := by
  obtain ⟨line, form⟩ := d
  cases form with
  | definition name value =>
    cases value with
    | none => exact .inl rfl
    | some value =>
      have hv : Tidy P .expression value :=
        h.part (p := (.expression, value)) (by simp [Node.form, Form.parts, Form.maybe])
      obtain ⟨l, form⟩ := value
      cases form with
      | sequence items =>
        obtain ⟨leading, last, rfl, hne, hall⟩ := exists_items hv
        exact .inr ⟨line, name, l, leading, last, rfl, rfl, hne, hall⟩
      | _ => exact .inl rfl
  | _ => cases h.fits

theorem splitDeclaration?_eq {kind : String} {definitions : List Node}
    (h : ∀ d ∈ definitions, Tidy P .definition d) :
    splitDeclaration? (.mk line (.declare kind definitions)) =
      if ∃ d ∈ definitions, (initial d).isSequence = true then
        some (splitDeclarators (fun ds => .mk line (.declare kind ds)) [] definitions)
      else none := by
  have plain : ∀ d ∈ definitions, (initial d).isPlain = !(initial d).isSequence := by
    intro d hd
    obtain hi | ⟨_, _, _, _, _, -, hi, -⟩ := initial_cases (h d hd) <;> rw [hi] <;> rfl
  unfold splitDeclaration?
  dsimp only
  rw [listFault?_of_tidy h]
  dsimp only
  split_ifs with hs
  · obtain ⟨d, hd, hseq⟩ := hs
    cases hfind : (definitions.map initial).find? (!·.isPlain) with
    | none =>
      rw [List.find?_eq_none] at hfind
      have := hfind _ (List.mem_map_of_mem hd)
      rw [plain d hd, hseq] at this
      simp at this
    | some i =>
      obtain ⟨e, he, rfl⟩ := List.mem_map.1 (List.mem_of_find?_eq_some hfind)
      obtain hi | ⟨_, _, _, _, _, -, hi, -⟩ := initial_cases (h e he)
      · have := List.find?_some hfind
        simp [hi, Initial.isPlain] at this
      · rw [hi]
  · have hfind : (definitions.map initial).find? (!·.isPlain) = none := by
      rw [List.find?_eq_none]
      intro i hi
      obtain ⟨d, hd, rfl⟩ := List.mem_map.1 hi
      have : (initial d).isSequence = false := by
        by_contra hseq
        exact hs ⟨d, hd, by simpa using hseq⟩
      simp [plain d hd, this]
    rw [hfind]

theorem split?_cases (h : Tidy P .statement n) :
    split? n = none ∨
      (∃ (slot : Slot) (l : Option Nat) (leading : List Node) (last : Node),
        n = slot.fill (.mk l (.sequence (leading ++ [last]))) ∧ slot.isSettled = true ∧
          leading ≠ [] ∧ ∀ x ∈ leading ++ [last], Tidy P .expression x) ∨
      ∃ line kind definitions, n = .mk line (.declare kind definitions) ∧
        (∃ d ∈ definitions, (initial d).isSequence = true) ∧
        split? n = some (splitDeclarators (fun ds => .mk line (.declare kind ds)) [] definitions) := by
  -- The sequence in a slot has at least two items.
  have filled : ∀ (slot : Slot) {l : Option Nat} {items : List Node},
      n = slot.fill (.mk l (.sequence items)) → slot.isSettled = true →
      Tidy P .expression (.mk l (.sequence items)) →
      ∃ (slot : Slot) (l : Option Nat) (leading : List Node) (last : Node),
        n = slot.fill (.mk l (.sequence (leading ++ [last]))) ∧ slot.isSettled = true ∧
          leading ≠ [] ∧ ∀ x ∈ leading ++ [last], Tidy P .expression x := by
    intro slot l items hn hs hx
    obtain ⟨leading, last, rfl, hne, hall⟩ := exists_items hx
    exact ⟨slot, l, leading, last, hn, hs, hne, hall⟩
  obtain ⟨line, form⟩ := n
  have part : ∀ {d : Category} {m : Node}, (d, m) ∈ form.parts .statement → Tidy P d m :=
    fun hm => h.part hm
  cases form with
  | exit kind value =>
    cases kind with
    | throwing => exact .inl rfl
    | returning =>
      cases value with
      | none => exact .inl rfl
      | some value =>
        obtain ⟨l, inner⟩ := value
        cases inner with
        | sequence items => exact .inr (.inl (filled (.returned line) rfl rfl (part (.head _))))
        | _ => exact .inl rfl
  | simple value =>
    have hv : Tidy P .expression value := part (.head _)
    obtain ⟨l, inner⟩ := value
    cases inner with
    | sequence items => exact .inr (.inl (filled (.simple line) rfl rfl hv))
    | assign operator left right =>
      obtain ⟨l', right⟩ := right
      cases right with
      | sequence items =>
        cases hs : isSettledTarget left with
        | true =>
          exact .inr (.inl (filled (.assigned line l operator left) rfl hs
            (hv.part (p := (.expression, _)) (.tail _ (.head _)))))
        | false =>
          refine .inl ?_
          rw [split?_eq]
          simp only [splitSlot?, splitDeclaration?, splitAssignment?, hs, Bool.false_eq_true,
            if_false, Option.or_none]
      | _ => exact .inl rfl
    | _ => exact .inl rfl
  | ifElse condition body alternative =>
    obtain ⟨l, inner⟩ := condition
    cases inner with
    | sequence items =>
      exact .inr (.inl (filled (.condition line body alternative) rfl rfl (part (.head _))))
    | _ => exact .inl rfl
  | forLoop init test step body =>
    cases init with
    | none => exact .inl rfl
    | some init =>
      have hi : Tidy P .initial init := part (.head _)
      obtain ⟨l, inner⟩ := init
      cases inner with
      | sequence items =>
        refine .inr (.inl (filled (.start line test step body) rfl rfl ?_))
        cases hi with
        | mk fits own parts => exact .mk fits own parts
      | _ => exact .inl rfl
  | withObject object body =>
    obtain ⟨l, inner⟩ := object
    cases inner with
    | sequence items => exact .inr (.inl (filled (.object line body) rfl rfl (part (.head _))))
    | _ => exact .inl rfl
  | switch subject branches =>
    obtain ⟨l, inner⟩ := subject
    cases inner with
    | sequence items => exact .inr (.inl (filled (.subject line branches) rfl rfl (part (.head _))))
    | _ => exact .inl rfl
  | declare kind definitions =>
    have hd : ∀ d ∈ definitions, Tidy P .definition d := fun d hd =>
      part (by simp [Form.parts, Form.many, hd])
    have hsplit : split? (.mk line (.declare kind definitions)) =
        splitDeclaration? (.mk line (.declare kind definitions)) := by
      rw [split?_eq]
      simp only [splitSlot?, splitAssignment?, Option.none_or, Option.or_none]
    rw [hsplit, splitDeclaration?_eq hd]
    split_ifs with hs
    · exact .inr (.inr ⟨line, kind, definitions, rfl, hs, rfl⟩)
    · exact .inl rfl
  | _ => exact .inl rfl

/-! ## The parts of a statement -/

theorem tidy_simple (hP : Stable P) (h : Tidy P .expression n) :
    Tidy P .statement (.mk line (.simple n)) :=
  .mk rfl (hP.of_isFree rfl) (by simpa [Form.parts] using h)

theorem tidy_asStatement (hP : Stable P) (h : Tidy P .expression n) :
    Tidy P .statement n.asStatement :=
  asStatement_of_tidy h ▸ tidy_simple hP h

theorem tidy_fill (hP : Stable P) {slot : Slot} {l : Option Nat} {items : List Node} {x : Node}
    (h : Tidy P .statement (slot.fill (.mk l (.sequence items)))) (hx : Tidy P .expression x) :
    Tidy P .statement (slot.fill x) := by
  have part : ∀ {p : Category × Node},
      p ∈ (slot.fill (.mk l (.sequence items))).form.parts .statement → Tidy P p.1 p.2 :=
    fun hp => h.part hp
  cases slot with
  | returned line =>
    exact .mk rfl (hP.of_isFree rfl) (by simpa [Form.parts, Form.maybe] using hx)
  | simple line => exact tidy_simple hP hx
  | condition line body alternative =>
    refine .mk rfl (hP.of_isFree rfl) fun p hp => ?_
    obtain rfl | hp := List.mem_cons.1 hp
    · exact hx
    · exact part (.tail _ hp)
  | start line test step body =>
    refine .mk rfl (hP.of_isFree rfl) fun p hp => ?_
    obtain rfl | hp := List.mem_cons.1 hp
    · exact hx.toInitial
    · exact part (.tail _ hp)
  | object line body =>
    refine .mk rfl (hP.withObject h.own) fun p hp => ?_
    obtain rfl | hp := List.mem_cons.1 hp
    · exact hx
    · exact part (.tail _ hp)
  | subject line branches =>
    refine .mk rfl (hP.of_isFree rfl) fun p hp => ?_
    obtain rfl | hp := List.mem_cons.1 hp
    · exact hx
    · exact part (.tail _ hp)
  | assigned line inner operator left =>
    have ha : Tidy P .expression (.mk inner (.assign operator left (.mk l (.sequence items)))) :=
      part (.head _)
    refine tidy_simple hP (.mk rfl (hP.assign ha.own) fun p hp => ?_)
    obtain rfl | hp := List.mem_cons.1 hp
    · exact ha.part (.head _)
    · cases List.mem_singleton.1 hp
      exact hx

theorem splitDeclarators_plain {declare : List Node → Node} {current rest : List Node} {d : Node}
    (h : initial d = .plain) :
    splitDeclarators declare current (d :: rest) = splitDeclarators declare (d :: current) rest := by
  rw [splitDeclarators, h]

theorem splitDeclarators_sequence {declare : List Node → Node} {current rest leading : List Node}
    {name last : Node} {l : Option Nat} (h : ∀ x ∈ leading ++ [last], Tidy P .expression x) :
    splitDeclarators declare current
        (.mk line (.definition name (some (.mk l (.sequence (leading ++ [last]))))) :: rest) =
      (if current.isEmpty then [] else [declare current.reverse]) ++ leading.map Node.asStatement ++
        splitDeclarators declare [.mk line (.definition name (some last))] rest := by
  simp only [splitDeclarators, initial, valueSlot?, Node.form, lastOf_append h, withValue]

theorem tidy_definition (hP : Stable P) {name value x : Node}
    (h : Tidy P .definition (.mk line (.definition name (some value)))) (hx : Tidy P .expression x) :
    Tidy P .definition (.mk line (.definition name (some x))) := by
  refine .mk rfl (hP.of_isFree rfl) fun p hp => ?_
  obtain rfl | hp := List.mem_cons.1 hp
  · exact h.part (.head _)
  · cases List.mem_singleton.1 hp
    exact hx

theorem tidy_declare (hP : Stable P) {kind : String} {ds : List Node} (hne : ds ≠ [])
    (h : ∀ d ∈ ds, Tidy P .definition d) : Tidy P .statement (.mk line (.declare kind ds)) := by
  refine .mk ?_ (hP.of_isFree rfl) (by simpa [Form.parts, Form.many] using h)
  cases ds with
  | nil => exact absurd rfl hne
  | cons d ds => rfl

theorem tidy_splitDeclarators (hP : Stable P) {kind : String} {current definitions : List Node}
    (hne : current ≠ [] ∨ definitions ≠ []) (hc : ∀ d ∈ current, Tidy P .definition d)
    (hd : ∀ d ∈ definitions, Tidy P .definition d) :
    ∀ m ∈ splitDeclarators (fun ds => .mk line (.declare kind ds)) current definitions,
      Tidy P .statement m := by
  induction definitions generalizing current with
  | nil =>
    intro m hm
    cases List.mem_singleton.1 hm
    exact tidy_declare hP (by simpa using hne) (by simpa using hc)
  | cons d rest ih =>
    rw [List.forall_mem_cons] at hd
    obtain hi | ⟨l, name, l', leading, last, rfl, -, -, hall⟩ := initial_cases hd.1
    · rw [splitDeclarators_plain hi]
      exact ih (.inl (by simp)) (List.forall_mem_cons.2 ⟨hd.1, hc⟩) hd.2
    · rw [splitDeclarators_sequence hall]
      rw [List.forall_mem_append] at hall
      simp only [List.forall_mem_append, List.forall_mem_map]
      refine ⟨⟨?_, fun x hx => tidy_asStatement hP (hall.1 x hx)⟩, ih (.inl (by simp)) ?_ hd.2⟩
      · split_ifs with he
        · simp
        · simpa using tidy_declare hP (by simpa using he) (by simpa using hc)
      · simpa using tidy_definition hP hd.1 (hall.2 last (by simp))

theorem tidy_split? (hP : Stable P) (h : Tidy P .statement n) {parts : List Node}
    (hs : split? n = some parts) : ∀ m ∈ parts, Tidy P .statement m := by
  obtain hn | ⟨slot, l, leading, last, rfl, hset, -, hall⟩ | ⟨line, kind, ds, rfl, -, hn⟩ :=
    split?_cases h
  · cases hn.symm.trans hs
  · cases (split?_fill hset l hall).symm.trans hs
    rw [List.forall_mem_append] at hall ⊢
    rw [List.forall_mem_map]
    exact ⟨fun x hx => tidy_asStatement hP (hall.1 x hx),
      by simpa using tidy_fill hP h (hall.2 last (by simp))⟩
  · cases hn.symm.trans hs
    have hds : ds ≠ [] := by
      rintro rfl
      cases h.isBodyStatement
    exact tidy_splitDeclarators hP (.inr hds) nofun fun d hd =>
      h.part (p := (.definition, d)) (by simp [Node.form, Form.parts, Form.many, hd])

/-! ## What the parts cost -/

section Costs

variable (ho : IsCost own unit)

include ho

theorem sum_total_asStatement {xs : List Node} (h : ∀ x ∈ xs, Tidy P .expression x) :
    ((xs.map Node.asStatement).map (Node.total own)).sum =
      unit * xs.length + (xs.map (Node.total own)).sum := by
  induction xs with
  | nil => simp
  | cons x xs ih =>
    rw [List.forall_mem_cons] at h
    have hx : x.asStatement.total own = unit + x.total own := by
      rw [asStatement_of_tidy h.1, Node.total_mk, ho.of_plain _ rfl rfl]
      simp [Form.children]
    simp only [List.map_cons, List.sum_cons, List.length_cons, ih h.2, hx, Nat.mul_succ]
    omega

theorem total_sequence (l : Option Nat) (leading : List Node) (last : Node) :
    unit * leading.length + unit + 1 + (leading.map (Node.total own)).sum + last.total own ≤
      (Node.mk l (.sequence (leading ++ [last]))).total own := by
  have := ho.sequence (leading ++ [last])
  rw [List.length_append, List.length_singleton, Nat.mul_succ] at this
  rw [Node.total_mk]
  simp only [Form.children, List.map_append, List.map_singleton, List.sum_append,
    List.sum_singleton]
  omega

theorem total_fill (slot : Slot) (x y : Node) :
    (slot.fill x).total own + y.total own = (slot.fill y).total own + x.total own := by
  cases slot with
  | assigned line inner operator left =>
    simp only [Slot.fill, Node.total_mk, Form.children, List.map_cons, List.map_nil, List.sum_cons,
      List.sum_nil]
    rw [ho.of_plain (.simple _) rfl rfl, ho.of_plain (.simple _) rfl rfl,
      ho.of_plain (.assign _ _ x) rfl rfl, ho.of_plain (.assign _ _ y) rfl rfl]
    omega
  | _ =>
    rw [Slot.fill, Slot.fill, Node.total_mk, Node.total_mk, ho.of_plain _ rfl rfl,
      ho.of_plain _ rfl rfl]
    simp only [Form.children, Option.toList_some, List.cons_append, List.map_cons, List.sum_cons,
      List.nil_append, List.map_nil, List.sum_nil]
    omega

theorem sum_splitDeclarators (line : Option Nat) (kind : String) (current : List Node)
    {definitions : List Node} (hd : ∀ d ∈ definitions, Tidy P .definition d) :
    ((splitDeclarators (fun ds => .mk line (.declare kind ds)) current definitions).map
        (Node.total own)).sum + definitions.countP (fun d => (initial d).isSequence) ≤
      unit + (current.map (Node.total own)).sum + (definitions.map (Node.total own)).sum := by
  have declared : ∀ ds : List Node, (Node.mk line (.declare kind ds)).total own =
      unit + (ds.map (Node.total own)).sum := fun ds => by
    rw [Node.total_mk, ho.of_plain _ rfl rfl]
    rfl
  induction definitions generalizing current with
  | nil => simp [splitDeclarators, declared]
  | cons d rest ih =>
    rw [List.forall_mem_cons] at hd
    obtain hi | ⟨l, name, l', leading, last, rfl, hi, -, hall⟩ := initial_cases hd.1
    · have := ih (d :: current) hd.2
      rw [splitDeclarators_plain hi, List.countP_cons_of_neg (by simp [hi, Initial.isSequence])]
      simp only [List.map_cons, List.sum_cons] at this ⊢
      omega
    · have hrest := ih [.mk l (.definition name (some last))] hd.2
      have hseq := total_sequence ho l' leading last
      have hlead := sum_total_asStatement ho (List.forall_mem_append.1 hall).1
      have hdef : ∀ x, (Node.mk l (.definition name (some x))).total own =
          unit + (name.total own + x.total own) := fun x => by
        rw [Node.total_mk, ho.of_plain _ rfl rfl]
        simp [Form.children]
      have hbefore : ((if current.isEmpty then [] else
          [Node.mk line (.declare kind current.reverse)]).map (Node.total own)).sum ≤
          unit + (current.map (Node.total own)).sum := by
        split_ifs <;> simp [declared]
      rw [splitDeclarators_sequence hall, List.countP_cons_of_pos (by simp [hi, Initial.isSequence])]
      simp only [List.map_append, List.sum_append, List.map_cons, List.sum_cons, List.map_nil,
        List.sum_nil, hdef, hlead] at hrest ⊢
      omega

theorem total_split? (h : Tidy P .statement n) {parts : List Node} (hs : split? n = some parts) :
    (parts.map (Node.total own)).sum < n.total own := by
  obtain hn | ⟨slot, l, leading, last, rfl, hset, -, hall⟩ | ⟨line, kind, ds, rfl, hd, hn⟩ :=
    split?_cases h
  · cases hn.symm.trans hs
  · cases (split?_fill hset l hall).symm.trans hs
    have hseq := total_sequence ho l leading last
    have hlead := sum_total_asStatement ho (List.forall_mem_append.1 hall).1
    have hfill := total_fill ho slot last (.mk l (.sequence (leading ++ [last])))
    simp only [List.map_append, List.sum_append, List.map_cons, List.sum_cons, List.map_nil,
      List.sum_nil, hlead]
    omega
  · cases hn.symm.trans hs
    have hds : ∀ d ∈ ds, Tidy P .definition d := fun d hd =>
      h.part (p := (.definition, d)) (by simp [Node.form, Form.parts, Form.many, hd])
    have hle := sum_splitDeclarators ho line kind [] hds
    have hpos : 0 < ds.countP fun d => (initial d).isSequence := List.countP_pos_iff.2 hd
    rw [Node.total_mk, ho.of_plain _ rfl rfl]
    simp only [Form.children, List.map_nil, List.sum_nil] at hle ⊢
    omega

end Costs

/-! ## Splitting as long as possible -/

theorem isCost_ownWeight : IsCost Form.ownWeight 1 where
  of_plain form hs hu := by
    cases form with
    | sequence items => cases hs
    | unary operator operand => cases hu
    | _ => rfl
  sequence items := by simp [Form.ownWeight]
  unary _ _ := le_rfl
  unit_le := le_rfl

theorem weight_split? (h : Tidy P .statement n) {parts : List Node} (hs : split? n = some parts) :
    (parts.map Node.weight).sum < n.weight := by
  have hw : Node.weight = Node.total Form.ownWeight := funext Node.weight_eq_total
  rw [hw]
  exact total_split? isCost_ownWeight h hs

theorem weight_lt_of_split? (h : Tidy P .statement n) {parts : List Node}
    (hs : split? n = some parts) {m : Node} (hm : m ∈ parts) : m.weight < n.weight :=
  (List.le_sum_of_mem (List.mem_map_of_mem hm)).trans_lt (weight_split? h hs)

theorem expandUpTo_congr (hP : Stable P) {bound fuel fuel' : Nat} (h : Tidy P .statement n)
    (hn : n.weight ≤ bound) (hf : bound ≤ fuel) (hf' : bound ≤ fuel') :
    expandUpTo fuel n = expandUpTo fuel' n := by
  induction bound generalizing n fuel fuel' with
  | zero =>
    have := n.one_le_weight
    omega
  | succ bound ih =>
    obtain ⟨fuel, rfl⟩ := Nat.exists_eq_add_of_le' (Nat.one_le_of_lt hf)
    obtain ⟨fuel', rfl⟩ := Nat.exists_eq_add_of_le' (Nat.one_le_of_lt hf')
    rw [expandUpTo, expandUpTo]
    cases hs : split? n with
    | none => rfl
    | some parts =>
      refine List.flatMap_congr fun m hm => ?_
      have := weight_lt_of_split? h hs hm
      exact ih (tidy_split? hP h hs m hm) (by omega) (by omega) (by omega)

theorem expand_of_none (hs : split? n = none) : expand n = [n] := by
  obtain ⟨fuel, hf⟩ := Nat.exists_eq_add_of_le' n.one_le_weight
  rw [expand, hf, expandUpTo, hs]

theorem expand_of_some (hP : Stable P) (h : Tidy P .statement n) {parts : List Node}
    (hs : split? n = some parts) : expand n = parts.flatMap expand := by
  obtain ⟨fuel, hf⟩ := Nat.exists_eq_add_of_le' n.one_le_weight
  rw [expand, hf, expandUpTo, hs]
  refine List.flatMap_congr fun m hm => ?_
  have := weight_lt_of_split? h hs hm
  exact expandUpTo_congr hP (tidy_split? hP h hs m hm) le_rfl (by omega) le_rfl

/-- Induction along the splits of a statement. -/
theorem split?_induct (hP : Stable P) {motive : Node → Prop}
    (none : ∀ n, Tidy P .statement n → split? n = none → motive n)
    (some : ∀ n parts, Tidy P .statement n → split? n = some parts → (∀ m ∈ parts, motive m) →
      motive n) (h : Tidy P .statement n) : motive n := by
  induction hw : n.weight using Nat.strongRecOn generalizing n with
  | _ k ih =>
    cases hs : split? n with
    | none => exact none n h hs
    | some parts =>
      refine some n parts h hs fun m hm => ?_
      exact ih _ (hw ▸ weight_lt_of_split? h hs hm) (tidy_split? hP h hs m hm) rfl

theorem tidy_expand (hP : Stable P) (h : Tidy P .statement n) :
    ∀ m ∈ expand n, Tidy P .statement m := by
  refine split?_induct hP (motive := fun n => ∀ m ∈ expand n, Tidy P .statement m)
    (fun n h hs => ?_) (fun n parts h hs ih => ?_) h
  · simpa [expand_of_none hs] using h
  · rw [expand_of_some hP h hs]
    simpa [List.mem_flatMap] using fun m k hk hm => ih k hk m hm

theorem split?_of_mem_expand (hP : Stable P) (h : Tidy P .statement n) :
    ∀ m ∈ expand n, split? m = none := by
  refine split?_induct hP (motive := fun n => ∀ m ∈ expand n, split? m = none)
    (fun n h hs => ?_) (fun n parts h hs ih => ?_) h
  · simpa [expand_of_none hs] using hs
  · rw [expand_of_some hP h hs]
    simpa [List.mem_flatMap] using fun m k hk hm => ih k hk m hm

theorem sum_expand_le (hP : Stable P) (ho : IsCost own unit) (h : Tidy P .statement n) :
    ((expand n).map (Node.total own)).sum ≤ n.total own := by
  refine split?_induct hP (motive := fun n => ((expand n).map (Node.total own)).sum ≤ n.total own)
    (fun n h hs => ?_) (fun n parts h hs ih => ?_) h
  · simp [expand_of_none hs]
  · rw [expand_of_some hP h hs, List.map_flatMap, List.flatMap_def, List.sum_flatten, List.map_map]
    exact (List.sum_le_sum ih).trans (total_split? ho h hs).le

theorem sum_expand_lt (hP : Stable P) (ho : IsCost own unit) (h : Tidy P .statement n)
    (hs : split? n ≠ none) : ((expand n).map (Node.total own)).sum < n.total own := by
  obtain ⟨parts, hs⟩ := Option.ne_none_iff_exists'.1 hs
  rw [expand_of_some hP h hs, List.map_flatMap, List.flatMap_def, List.sum_flatten, List.map_map]
  refine (List.sum_le_sum fun m hm => ?_).trans_lt (total_split? ho h hs)
  exact sum_expand_le hP ho (tidy_split? hP h hs m hm)

theorem total_wrap_le (ho : IsCost own unit) {parts : List Node}
    (h : ∀ m ∈ parts, Tidy P .statement m) :
    (wrap n parts).total own ≤ unit + (parts.map (Node.total own)).sum := by
  by_cases hl : parts.length = 1
  · obtain ⟨part, rfl⟩ := List.length_eq_one_iff.1 hl
    rw [wrap_singleton (h part (.head _))]
    simp
  · rw [wrap_of_length_ne (fun m hm => ⟨_, h m hm⟩) hl, Node.total_mk, ho.of_plain _ rfl rfl]
    simp [Form.children]

theorem cost_expand (hP : Stable P) (ho : IsCost own unit) (h : Tidy P .statement n) :
    ((expand n).map (Node.total own)).sum ≤ n.total own ∧
      (wrap n (expand n)).total own ≤ n.total own := by
  refine ⟨sum_expand_le hP ho h, ?_⟩
  by_cases hs : split? n = none
  · rw [expand_of_none hs, wrap_singleton h]
  · have hlt := sum_expand_lt hP ho h hs
    have hle := total_wrap_le (n := n) ho (tidy_expand hP h)
    have := ho.unit_le
    omega

end Normal

end Debundle
