import Debundle.Proofs.Reading.Chains
import Debundle.Proofs.Reading.Places
import Debundle.Writing.Place

/-!
# Operator chains and their parentheses

A `Grouping` is a tree of joins over operands that are not looked into. Reading one in order gives a
flat chain, and the fold of a chain is the one grouping that reads so and is ordered: to the left of
a join nothing binds looser than it, and all to its right binds tighter.

A set of joins in parentheses cuts a grouping into chains, each of which is folded. This gives the
grouping back exactly if all joins are in it for which parentheses are asked (`folded_eq_iff`). So
these are enough, and none of them can be left out (`fold_groups`).
-/
namespace Debundle.Chain

/-- A tree of joins over operands. -/
inductive Grouping where
  | operand (x : Node)
  | join (operator : String) (left right : Grouping)

namespace Grouping

/-- The tree that is built of nodes. A join begins on the line of its left part. -/
def node : Grouping → Node
  | operand x => x
  | join o l r => .mk l.node.line (.binary o l.node r.node)

/-- The first operand. -/
def first : Grouping → Node
  | operand x => x
  | join _ l _ => l.first

/-- The operators in order, each with the operand after it. -/
def rest : Grouping → List (String × Node)
  | operand _ => []
  | join o l r => l.rest ++ (o, r.first) :: r.rest

/-- The operator at the root. -/
def operator? : Grouping → Option String
  | operand _ => none
  | join o _ _ => some o

/-- The operators below the left of a join bind at least as tight, those below its right tighter. -/
def IsOrdered : Grouping → Prop
  | operand _ => True
  | join o l r => (∀ p ∈ l.operator?, power o ≤ power p) ∧ (∀ p ∈ r.operator?, power o < power p) ∧
      l.IsOrdered ∧ r.IsOrdered

/-- The chain that is left of a grouping, where the joins at some paths are in parentheses. A path
goes to the right where it is `true`. What is in parentheses is folded to one operand. -/
def chain (enclosed : List Bool → Bool) : Grouping → Node × List (String × Node)
  | operand x => (x, [])
  | join o l r =>
    let (x, before) := l.chain fun path => enclosed (false :: path)
    let (y, after) := r.chain fun path => enclosed (true :: path)
    let rest := before ++ (o, y) :: after
    if enclosed [] then (fold x rest, []) else (x, rest)

/-- What is read of a grouping with some parentheses. -/
def folded (enclosed : List Bool → Bool) (g : Grouping) : Node :=
  fold (g.chain enclosed).1 (g.chain enclosed).2

/-- Whether the join at a path needs parentheses in a grouping at some place. -/
def asks (place : Place) : Grouping → List Bool → Bool
  | operand _, _ => false
  | join o l r, [] => (place.parenthesizes (.binary o l.node r.node) matches .ok true)
  | join o l _, false :: path => l.asks (place.leading (.chained o false)) path
  | join o _ r, true :: path => r.asks (place.inside (.chained o true)) path

end Grouping

/-! ## Sizes -/

/-- The size of the joins and operands after the first operand. -/
def weight (rest : List (String × Node)) : Nat :=
  (rest.map fun p => p.2.count + 1).sum

theorem count_binary (line : Option Nat) (o : String) (l r : Node) :
    (Node.mk line (.binary o l r)).count = l.count + r.count + 1 := by
  rw [Node.count, Node.foldChildren_mk]
  simp [Form.children, Nat.add_comm]

theorem weight_append (before after : List (String × Node)) :
    weight (before ++ after) = weight before + weight after := by
  simp [weight]

theorem weight_cons (o : String) (x : Node) (rest : List (String × Node)) :
    weight ((o, x) :: rest) = x.count + 1 + weight rest := by
  simp [weight]

theorem Grown.count_eq {m : Nat} {t x : Node} {rest : List (String × Node)}
    (h : Grown m t x rest) : t.count = x.count + weight rest := by
  induction h with
  | operand => rfl
  | join tight left right ihl ihr =>
    rw [count_binary, weight_append, weight_cons, ihl, ihr]
    omega

theorem count_fold (x : Node) (rest : List (String × Node)) :
    (fold x rest).count = x.count + weight rest :=
  (fold_eq_iff.1 rfl).count_eq

/-- A chain is cut in two at one place only, if the size to the left is given. -/
theorem append_inj_of_weight {before before' after after' : List (String × Node)}
    {p p' : String × Node} (h : before ++ p :: after = before' ++ p' :: after')
    (hw : weight before = weight before') : before = before' ∧ p = p' ∧ after = after' := by
  obtain ⟨mid, rfl, hmid⟩ | ⟨mid, rfl, hmid⟩ := List.append_eq_append_iff.1 h
  all_goals
    rw [weight_append] at hw
    obtain rfl : mid = [] := by
      cases mid with
      | nil => rfl
      | cons q mid => rw [weight_cons] at hw; omega
    simp_all

/-- The tree of a chain splits where the chain is cut by its left part. -/
theorem Grown.of_join {m : Nat} {line : Option Nat} {o : String} {l r x y : Node}
    {before after : List (String × Node)}
    (h : Grown m (.mk line (.binary o l r)) x (before ++ (o, y) :: after))
    (hl : l.count = x.count + weight before) :
    m ≤ power o ∧ Grown (power o) l x before ∧ Grown (power o + 1) r y after := by
  generalize hc : before ++ (o, y) :: after = chain at h
  cases h with
  | operand => simp at hc
  | @join _ _ _ _ _ z before' after' tight left right =>
    have hw := left.count_eq
    obtain ⟨rfl, ⟨⟩, rfl⟩ := append_inj_of_weight hc (by omega)
    exact ⟨tight, left, right⟩

namespace Grouping

variable {enclosed : List Bool → Bool}

/-! ## Parentheses that are enough -/

theorem chain_join (o : String) (l r : Grouping) : ∃ x before y after,
    l.chain (fun path => enclosed (false :: path)) = (x, before) ∧
    r.chain (fun path => enclosed (true :: path)) = (y, after) ∧
    (join o l r).chain enclosed = if enclosed [] then (fold x (before ++ (o, y) :: after), [])
      else (x, before ++ (o, y) :: after) :=
  ⟨_, _, _, _, rfl, rfl, rfl⟩

theorem count_node (enclosed : List Bool → Bool) (g : Grouping) :
    g.node.count = (g.chain enclosed).1.count + weight (g.chain enclosed).2 := by
  induction g generalizing enclosed with
  | operand => rfl
  | join o l r ihl ihr =>
    obtain ⟨x, before, y, after, hx, hy, hchain⟩ := @chain_join enclosed o l r
    have hcount : (join o l r).node.count = x.count + weight (before ++ (o, y) :: after) := by
      rw [node, count_binary, ihl, ihr, hx, hy, weight_append, weight_cons]
      dsimp only
      omega
    rw [hchain, hcount]
    split
    · rw [count_fold]
      rfl
    · rfl

/-- The joins that are not in parentheses are in the order in which chains are folded. -/
def Fits (enclosed : List Bool → Bool) : Grouping → Prop
  | operand _ => True
  | join o l r => (enclosed [false] = false → ∀ p ∈ l.operator?, power o ≤ power p) ∧
      (enclosed [true] = false → ∀ p ∈ r.operator?, power o < power p) ∧
      l.Fits (fun path => enclosed (false :: path)) ∧ r.Fits fun path => enclosed (true :: path)

theorem grown_chain_iff {m : Nat} {g : Grouping} :
    Grown m g.node (g.chain enclosed).1 (g.chain enclosed).2 ↔
      (enclosed [] = false → ∀ o ∈ g.operator?, m ≤ power o) ∧ g.Fits enclosed := by
  induction g generalizing enclosed m with
  | operand x => exact ⟨fun _ => ⟨fun _ => nofun, trivial⟩, fun _ => .operand m x⟩
  | join o l r ihl ihr =>
    obtain ⟨x, before, y, after, hx, hy, hchain⟩ := @chain_join enclosed o l r
    have hl := count_node (fun path => enclosed (false :: path)) l
    have left := @ihl (fun path => enclosed (false :: path)) (power o)
    have right := @ihr (fun path => enclosed (true :: path)) (power o + 1)
    rw [hx] at hl left
    rw [hy] at right
    have parts : ∀ k : Nat, Grown k (join o l r).node x (before ++ (o, y) :: after) ↔
        k ≤ power o ∧ (join o l r).Fits enclosed := by
      intro k
      constructor
      · intro h
        obtain ⟨hk, hgl, hgr⟩ := h.of_join hl
        obtain ⟨hol, hfl⟩ := left.1 hgl
        obtain ⟨hor, hfr⟩ := right.1 hgr
        exact ⟨hk, hol, hor, hfl, hfr⟩
      · rintro ⟨hk, hol, hor, hfl, hfr⟩
        exact .join hk (left.2 ⟨hol, hfl⟩) (right.2 ⟨hor, hfr⟩)
    rw [hchain]
    cases hroot : enclosed [] with
    | false => simpa [operator?] using parts m
    | true =>
      -- What is in parentheses is an operand, so it has to be folded to the grouping by itself.
      have alone : Grown m (join o l r).node (fold x (before ++ (o, y) :: after)) [] ↔
          fold x (before ++ (o, y) :: after) = (join o l r).node :=
        ⟨fun h => (fold_grown h : fold (fold x _) [] = _), fun h => h ▸ .operand m _⟩
      simpa [fold_eq_iff, parts 0] using alone

/-- Some parentheses are enough exactly if all joins not in them fit. -/
theorem folded_eq_node_iff {g : Grouping} : g.folded enclosed = g.node ↔ g.Fits enclosed := by
  rw [folded, fold_eq_iff, grown_chain_iff]
  simp

/-! ## The order of groupings -/

theorem chain_none (g : Grouping) : g.chain (fun _ => false) = (g.first, g.rest) := by
  induction g with
  | operand => rfl
  | join o l r ihl ihr => simp [chain, first, rest, ihl, ihr]

theorem fits_none_iff {g : Grouping} : g.Fits (fun _ => false) ↔ g.IsOrdered := by
  induction g with
  | operand => exact Iff.rfl
  | join o l r ihl ihr => simp [Fits, IsOrdered, ihl, ihr]

theorem fold_eq_node_iff {g : Grouping} : fold g.first g.rest = g.node ↔ g.IsOrdered := by
  rw [← fits_none_iff, ← folded_eq_node_iff, folded, chain_none]

theorem ext_of_node {g g' : Grouping} (hfirst : g.first = g'.first) (hrest : g.rest = g'.rest)
    (hnode : g.node = g'.node) : g = g' := by
  induction g generalizing g' with
  | operand x =>
    cases g' with
    | operand y => exact congrArg operand hfirst
    | join => simp [rest] at hrest
  | join o l r ihl ihr =>
    cases g' with
    | operand => simp [rest] at hrest
    | join o' l' r' =>
      obtain ⟨-, hform⟩ := Node.mk.inj hnode
      obtain ⟨rfl, hl, hr⟩ := Form.binary.inj hform
      have hcount := congrArg Node.count hl
      rw [count_node (fun _ => false), count_node (fun _ => false) l', chain_none, chain_none] at hcount
      simp only [first] at hfirst
      simp only [hfirst] at hcount
      obtain ⟨hbefore, hy, hafter⟩ := append_inj_of_weight hrest (by omega)
      rw [ihl hfirst hbefore hl, ihr (Prod.mk.inj hy).2 hafter hr]

theorem exists_of_grown {m : Nat} {t x : Node} {rest : List (String × Node)}
    (h : Grown m t x rest) : ∃ g : Grouping, g.first = x ∧ g.rest = rest ∧ g.node = t := by
  induction h with
  | operand m x => exact ⟨operand x, rfl, rfl, rfl⟩
  | join tight left right ihl ihr =>
    obtain ⟨l, rfl, rfl, rfl⟩ := ihl
    obtain ⟨r, rfl, rfl, rfl⟩ := ihr
    exact ⟨join _ l r, rfl, rfl, rfl⟩

/-! ## Parentheses that are asked for -/

/-- The operators of a grouping are operators of the language. -/
def IsKnown (g : Grouping) : Prop :=
  ∀ p ∈ g.rest, (precedence? p.1).isSome = true

theorem isKnown_join {o : String} {l r : Grouping} (h : (join o l r).IsKnown) :
    (precedence? o).isSome = true ∧ l.IsKnown ∧ r.IsKnown := by
  simp only [IsKnown, rest, List.mem_append, List.mem_cons] at h ⊢
  exact ⟨h _ (.inr (.inl rfl)), fun p hp => h p (.inl hp), fun p hp => h p (.inr (.inr hp))⟩

theorem asks_root {parent : String} (hparent : (precedence? parent).isSome = true) {g : Grouping}
    (h : g.IsKnown) (right leads : Bool) :
    g.asks ⟨.chained parent right, leads, false⟩ [] = false ↔
      ∀ o ∈ g.operator?, if right then power parent < power o else power parent ≤ power o := by
  cases g with
  | operand => simp [asks, operator?]
  | join o l r =>
    obtain ⟨ho, -, -⟩ := isKnown_join h
    obtain ⟨i, hi⟩ := Option.isSome_iff_exists.1 hparent
    obtain ⟨j, hj⟩ := Option.isSome_iff_exists.1 ho
    have hasks : (join o l r).asks ⟨.chained parent right, leads, false⟩ [] =
        (decide (j < i) || (i == j && right)) := by
      cases hb : decide (j < i) || (i == j && right) <;>
        simp [asks, Place.parenthesizes, Standing.encloses, hi, hj, hb, bind, Except.bind, pure,
          Except.pure]
    rw [hasks]
    cases right with
    | false => simp [operator?, power, hi, hj]
    | true =>
      simp [operator?, power, hi, hj]
      omega

theorem forall_asks_iff {g : Grouping} {place : Place} :
    (∀ path, g.asks place path = true → enclosed path = true) ↔
      (enclosed [] = false → g.asks place [] = false) ∧
        ∀ path ≠ [], g.asks place path = true → enclosed path = true := by
  constructor
  · intro h
    refine ⟨fun hroot => ?_, fun path _ => h path⟩
    rw [← Bool.not_eq_true]
    exact fun hasks => absurd (h [] hasks) (by simp [hroot])
  · rintro ⟨hroot, h⟩ path hasks
    obtain rfl | hne := eq_or_ne path []
    · rw [← Bool.not_eq_false]
      exact fun hnot => absurd hasks (by simp [hroot hnot])
    · exact h path hne hasks

/-- Parentheses at all joins that ask for them are what a grouping needs to fit. -/
theorem fits_iff_asks {g : Grouping} (h : g.IsKnown) (standing : Standing) (leads : Bool) :
    g.Fits enclosed ↔
      ∀ path ≠ [], g.asks ⟨standing, leads, false⟩ path = true → enclosed path = true := by
  induction g generalizing enclosed standing leads with
  | operand => simp [Fits, asks]
  | join o l r ihl ihr =>
    obtain ⟨ho, hl, hr⟩ := isKnown_join h
    have left := asks_root ho hl false leads
    have right := asks_root ho hr true false
    simp only [Bool.false_eq_true, if_false, if_true] at left right
    calc (join o l r).Fits enclosed
        ↔ (∀ path, l.asks ⟨.chained o false, leads, false⟩ path = true →
            enclosed (false :: path) = true) ∧
          ∀ path, r.asks ⟨.chained o true, false, false⟩ path = true →
            enclosed (true :: path) = true := by
          simp only [Fits, ihl hl (.chained o false) leads, ihr hr (.chained o true) false,
            forall_asks_iff, left, right]
          tauto
      _ ↔ _ := by
          refine ⟨fun ⟨hleft, hright⟩ path hne hasks => ?_, fun hall =>
            ⟨fun path hasks => hall (false :: path) nofun hasks,
              fun path hasks => hall (true :: path) nofun hasks⟩⟩
          match path with
          | [] => exact absurd rfl hne
          | false :: path => exact hleft path hasks
          | true :: path => exact hright path hasks

/-- A set of parentheses is enough exactly if it has all that are asked for. -/
theorem folded_eq_iff {g : Grouping} (h : g.IsKnown) :
    g.folded enclosed = g.node ↔ ∀ path, g.asks .root path = true → enclosed path = true := by
  rw [folded_eq_node_iff, fits_iff_asks h .plain false]
  refine ⟨fun hall path hasks => hall path ?_ hasks, fun hall path _ => hall path⟩
  rintro rfl
  cases g <;> simp [asks, Place.root, Place.parenthesizes] at hasks

/-! ## Lines -/

/-- A grouping of operands without lines. -/
def unplaced : Grouping → Grouping
  | operand x => operand x.unplaced
  | join o l r => join o l.unplaced r.unplaced

theorem node_unplaced (g : Grouping) : g.unplaced.node = g.node.unplaced := by
  induction g with
  | operand => rfl
  | join o l r ihl ihr =>
    have hline : l.node.unplaced.line = none := by
      obtain ⟨line, form⟩ := l.node
      rw [Node.unplaced_mk]
      rfl
    rw [node, Node.unplaced_mk, unplaced, node, ihl, ihr, hline]
    rfl

theorem chain_unplaced (enclosed : List Bool → Bool) (g : Grouping) :
    g.unplaced.chain enclosed = ((g.chain enclosed).1.unplaced,
      (g.chain enclosed).2.map fun p => (p.1, p.2.unplaced)) := by
  induction g generalizing enclosed with
  | operand => rfl
  | join o l r ihl ihr =>
    simp only [unplaced, chain, ihl, ihr]
    split
    · simp [← fold_unplaced]
    · simp

theorem folded_unplaced (g : Grouping) :
    g.unplaced.folded enclosed = (g.folded enclosed).unplaced := by
  rw [folded, chain_unplaced, fold_unplaced, folded]

theorem asks_unplaced (place : Place) (g : Grouping) (path : List Bool) :
    g.unplaced.asks place path = g.asks place path := by
  induction g generalizing place path with
  | operand => rfl
  | join o l r ihl ihr =>
    match path with
    | [] => rfl
    | false :: path => exact ihl _ path
    | true :: path => exact ihr _ path

theorem rest_unplaced (g : Grouping) :
    g.unplaced.rest = g.rest.map fun p => (p.1, p.2.unplaced) := by
  have := chain_unplaced (fun _ => false) g
  rw [chain_none, chain_none] at this
  exact (Prod.mk.inj this).2

theorem IsKnown.unplaced {g : Grouping} (h : g.IsKnown) : g.unplaced.IsKnown := by
  rw [IsKnown, rest_unplaced]
  exact List.forall_mem_map.2 h

end Grouping

/-- The fold of a chain is its one grouping that is ordered. A grouping is folded back with all
parentheses that are asked for, and to another tree without any one of them. -/
theorem fold_groups :
    (∀ (x : Node) (rest : List (String × Node)), ∃ g : Grouping, g.node = fold x rest ∧
      (g.first = x ∧ g.rest = rest ∧ g.IsOrdered) ∧
      ∀ g' : Grouping, g'.first = x → g'.rest = rest → g'.IsOrdered → g' = g) ∧
    ∀ g : Grouping, g.IsKnown → g.folded (g.asks .root) = g.node ∧
      ∀ path, g.asks .root path = true →
        (g.folded fun p => g.asks .root p && p != path).unplaced ≠ g.node.unplaced := by
  constructor
  · intro x rest
    obtain ⟨g, rfl, rfl, hnode⟩ := Grouping.exists_of_grown (fold_eq_iff.1 (Eq.refl (fold x rest)))
    refine ⟨g, hnode, ⟨rfl, rfl, Grouping.fold_eq_node_iff.1 hnode.symm⟩, fun g' hx hrest hg' => ?_⟩
    refine Grouping.ext_of_node hx hrest ?_
    rw [← Grouping.fold_eq_node_iff.2 hg', hx, hrest, hnode]
  · intro g hknown
    refine ⟨(Grouping.folded_eq_iff hknown).2 fun _ => id, fun path hasks heq => ?_⟩
    rw [← Grouping.folded_unplaced, ← Grouping.node_unplaced,
      Grouping.folded_eq_iff hknown.unplaced] at heq
    have := heq path (by rw [Grouping.asks_unplaced, hasks])
    simp at this

/-- The grouping `(a + b) * c`. -/
def sumProduct : Grouping :=
  .join "*" (.join "+" (.operand (.mk none (.symbol ⟨.reference, "a", none, none⟩)))
    (.operand (.mk none (.symbol ⟨.reference, "b", none, none⟩))))
    (.operand (.mk none (.symbol ⟨.reference, "c", none, none⟩)))

theorem fold_groups_sumProduct :
    sumProduct.folded (sumProduct.asks .root) = sumProduct.node ∧
      (sumProduct.folded fun p => sumProduct.asks .root p && p != [false]).unplaced ≠
        sumProduct.node.unplaced :=
  have hknown : sumProduct.IsKnown := by
    simp only [Grouping.IsKnown, sumProduct, Grouping.rest, List.cons_append, List.nil_append,
      List.forall_mem_cons]
    exact ⟨by decide, by decide, nofun⟩
  ⟨(fold_groups.2 sumProduct hknown).1, (fold_groups.2 sumProduct hknown).2 [false] (by decide)⟩

end Debundle.Chain
