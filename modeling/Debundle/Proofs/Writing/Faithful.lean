import Debundle.Proofs.Writing.Ascii
import Debundle.Proofs.Writing.Levels
import Debundle.Proofs.Writing.Strings

/-!
# Faithful trees

The trees that are written so that they can be read back (`Form.IsFaithful`), the tree that is then
read (`Node.settled`), and for every expression how tight it binds where it stands
(`Node.levelAt`) and what may not be written right after it (`Node.refused`).
-/
namespace Debundle

open Text Chain Escape Lexeme

/-! ## Where parentheses are written -/

/-- Whether a form is put in parentheses at a place. -/
def Place.parens (p : Place) (form : Form Node) : Bool :=
  match p.parenthesizes form with
  | .ok b => b
  | .error _ => false

/-- A place of which only the standing is known. -/
def Standing.bare (standing : Standing) : Place := ⟨standing, false, false⟩

/-- How tight an unparenthesised form binds. -/
def Form.level : Form Node → Level
  | .sequence _ => .expression
  | .assign .. => .assignment
  | .conditional .. => .conditional
  | .binary operator .. => .binary (power operator)
  | .unary .. => .unary
  | .update .. => .update
  | .call .. => .call
  | .dot subject _ | .index subject _ => if subject.startsWithCall then .call else .member
  | .construct .. | .function .. => .member
  | _ => .primary

namespace Node

/-- How tight a node binds at a place. -/
def levelAt (n : Node) (p : Place) : Level :=
  if p.parens n.form then .primary else n.form.level

/-- The terminals that may not come right after a node: a dot after a number, a slash after a
function, and after a regular expression what would be taken for a part of it. The node at the end
of an expression decides, if it stands in no parentheses. -/
def refused (strict : Bool) : Node → Standing → List Terminal :=
  foldUp fun _ form standing =>
    if standing.bare.parens (form.map Prod.fst) then []
    else match form with
      | .unary _ operand => operand.2 .operand
      | .binary operator _ right => right.2 (.chained operator true)
      | .assign _ _ right => right.2 .assigned
      | .conditional _ _ alternative => alternative.2 .choice
      | .sequence items => (items.getLast?.map fun last => last.2 .plain).getD []
      | .number _ => [.dot]
      | .function .. => [.slash, .slashEqual]
      | .regexp source => [.plusPlus, .minusMinus] ++
          if strict && source.toList.getLast? = some '/' then [.kwIn, .kwInstanceof] else []
      | _ => []

end Node

/-- The terminals that may not come right after a form without parentheses. -/
def Form.refused (strict : Bool) : Form Node → List Terminal
  | .unary _ operand => operand.refused strict .operand
  | .binary operator _ right => right.refused strict (.chained operator true)
  | .assign _ _ right => right.refused strict .assigned
  | .conditional _ _ alternative => alternative.refused strict .choice
  | .sequence items => (items.getLast?.map fun last => last.refused strict .plain).getD []
  | .number _ => [.dot]
  | .function .. => [.slash, .slashEqual]
  | .regexp source => [.plusPlus, .minusMinus] ++
      if strict && source.toList.getLast? = some '/' then [.kwIn, .kwInstanceof] else []
  | _ => []

/-! ## The trees that are read back -/

/-- ASCII without control characters. -/
def Text.IsPrintable (cs : List Char) : Prop :=
  ∀ c ∈ cs, isBeyondAscii c = false

/-- A name that is no keyword. -/
structure IsIdentifier (k : String) : Prop where
  name : IsName k.toList
  own : (Token.of .name k).spellsKeyword = false
  printable : IsPrintable k.toList

namespace Form

/-- What can be assigned to. -/
def isTarget {α : Type} : Form α → Bool
  | symbol _ | dot .. | index .. => true
  | _ => false

def isUnaryLike {α : Type} : Form α → Bool
  | unary .. | update .. => true
  | _ => false

/-- The texts of a form can be read back, and so can its parts where they stand. -/
def IsFaithful (strict : Bool) : Form Node → Prop
  | symbol s => s.home = none ∧ s.shownAs = none ∧ IsIdentifier s.name
  | labeled label _ => IsIdentifier label
  | jump _ label => ∀ k ∈ label, IsIdentifier k
  | dot _ key => IsName key.toList ∧ IsPrintable key.toList
  | string value => '\\' ∉ value.toList
  | property _ key _ => '\\' ∉ key.toList ∧
      (Layout.isBareKey key.toList = true → IsPrintable key.toList) ∧
      (key.toList.all Char.isDigit = true → key.length < Numeral.maxDigits)
  | number value => ∃ n : Nat, value = .whole n ∧ n < 10 ^ Numeral.maxDigits
  | regexp source => IsPrintable source.toList ∧ regex? source.toList = some source.toList.length
  | sequence items => ∀ item ∈ items, item.form.isSequence = false
  | assign operator left _ => left.form.isTarget = true ∧
      operator ∈ Nonterminal.assignmentOperator.words.flatMap Terminal.spellings
  | update operator operand => operand.form.isTarget = true ∧ operator ∈ ["++", "--"]
  | unary operator _ => operator ∈ Nonterminal.unaryOperator.words.flatMap Terminal.spellings
  | binary operator left _ => ∃ t ∈ Nonterminal.binaryOperator.words, operator ∈ t.spellings ∧
      t ∉ left.refused strict (.chained operator false)
  | construct callee _ => callee.form.isUnaryLike = false
  | declare kind _ => kind ∈ Terminal.kwVar.spellings
  | forIn init subject _ => init.form.isDeclaration = true ∨
      init.form.isTarget = true ∧ 3 ≤ subject.form.level.rank ∧
        ∀ k, subject.form.level = .binary k → power "in" < k
  | _ => True

end Form

/-- A tree that can be read back. -/
def IsFaithful (strict : Bool) (c : Category) (n : Node) : Prop :=
  Shaped (Form.IsFaithful strict) c n

/-! ## The tree that is read -/

namespace Node

/-- A controlled statement in braces. -/
def sheltered (body : Node × Node) : Node :=
  match body.1.form with
  | .empty => mk none (.block [])
  | .block _ => body.2
  | _ => mk none (.block [body.2])

/-- The statements of a body that are not empty. -/
def kept (body : List (Node × Node)) : List Node :=
  (body.filter (!·.1.form.isEmpty)).map Prod.snd

/-- A controlled statement, in braces if the style asks for them. -/
def governed (style : Style) (body : Node × Node) : Node :=
  if style.bracketize then sheltered body else body.2

/-- A form with empty statements left out and controlled statements in braces, or, if the style asks
for none, only the one that would take an `else` from the `if` around it. -/
def settledForm (style : Style) : Form (Node × Node) → Form Node
  | .program body => .program (kept body)
  | .block body => .block (kept body)
  | .finalizer body => .finalizer (kept body)
  | .handler caught body => .handler caught.2 (kept body)
  | .tryBlock body caught last =>
    .tryBlock (kept body) (caught.map Prod.snd) (last.map Prod.snd)
  | .function kind name parameters body =>
    .function kind (name.map Prod.snd) (parameters.map Prod.snd) (kept body)
  | .doWhile body condition => .doWhile (sheltered body) condition.2
  | .whileLoop condition body => .whileLoop condition.2 (governed style body)
  | .forLoop init condition step body =>
    .forLoop (init.map Prod.snd) (condition.map Prod.snd) (step.map Prod.snd) (governed style body)
  | .forIn init object body => .forIn init.2 object.2 (governed style body)
  | .withObject object body => .withObject object.2 (governed style body)
  | .ifElse condition body alternative =>
    .ifElse condition.2
      (if alternative.isSome && Layout.capturesElse body.1 then sheltered body
        else governed style body)
      (alternative.map fun other =>
        if Layout.isIf (other.1, fun _ => []) then other.2 else governed style other)
  | form => form.map Prod.snd

/-- The tree that is read from what is written for a tree: without lines, empty statements are left
out and controlled statements are in braces where they are written in them. -/
def settled (style : Style) : Node → Node :=
  foldUp fun _ form => mk none (settledForm style form)

end Node

namespace Node

theorem settled_mk (style : Style) (line : Option Nat) (form : Form Node) :
    (mk line form).settled style =
      mk none (settledForm style (form.map fun n => (n, n.settled style))) := by
  rw [settled, foldUp_mk]

@[simp] theorem line_settled (style : Style) (n : Node) : (n.settled style).line = none := by
  obtain ⟨line, form⟩ := n
  rw [settled_mk]
  rfl

end Node

theorem IsFaithful.isOrdinary {strict : Bool} {c : Category} {n : Node}
    (h : IsFaithful strict c n) : n.form.IsOrdinary := by
  have words : ∀ (classes : List Terminal) {text : String},
      text ∈ classes.flatMap Terminal.spellings →
      (classes.flatMap Terminal.spellings).all (fun w => w.toList.all isBasic) = true →
      Text.IsBasic text.toList := by
    intro classes text htext hall
    exact List.all_eq_true.1 (List.all_eq_true.1 hall text htext)
  have known : ∀ w ∈ Nonterminal.binaryOperator.words.flatMap Terminal.spellings,
      (precedence? w).isSome = true := by decide
  obtain ⟨line, form⟩ := n
  have hown := h.own
  have hfits := h.fits
  cases form with
  | declare kind =>
    exact words [.kwVar] (List.mem_flatMap.2 ⟨_, .head _, hown⟩) (by decide)
  | unary => exact words _ hown (by decide)
  | update operator =>
    exact words Nonterminal.updateOperator.words
      ((by decide : ∀ w ∈ ["++", "--"], w ∈ _) _ hown.2) (by decide)
  | assign => exact words _ hown.2 (by decide)
  | binary operator left right =>
    obtain ⟨t, ht, hs, -⟩ := hown
    have hmem : operator ∈ Nonterminal.binaryOperator.words.flatMap Terminal.spellings :=
      List.mem_flatMap.2 ⟨t, ht, hs⟩
    exact ⟨words _ hmem (by decide), known _ hmem⟩
  | function kind => cases kind <;> first | trivial | (cases c <;> cases hfits)
  | loose | absent | defect => cases c <;> cases hfits
  | _ => trivial

/-! ## Levels and places -/

namespace Place

theorem parenthesizes_eq {form : Form Node} (ho : form.IsOrdinary) {p : Place} (hp : p.IsKnown) :
    p.parenthesizes form = .ok (p.parens form) := by
  obtain ⟨b, hb⟩ := exists_parenthesizes ho hp
  rw [parens, hb]

/-- What begins a statement or a `for` loop gets parentheses wherever it would get them else. -/
theorem parens_bare {form : Form Node} (he : form.isExpression = true) {p : Place}
    (h : p.parens form = false) : p.standing.bare.parens form = false := by
  obtain ⟨standing, leads, forInit⟩ := p
  cases form with
  | binary operator left right =>
    cases standing with
    | chained parent side =>
      simp only [parens, parenthesizes, Standing.bare] at h ⊢
      cases hen : Standing.encloses parent side operator with
      | error => rfl
      | ok b =>
        rw [hen] at h
        cases b with
        | true => exact h
        | false => exact Bool.and_false _
    | _ => simp_all [parens, parenthesizes, Standing.bare]
  | function kind => cases kind <;> rfl
  | object => rfl
  | sequence | unary | update | assign | conditional | call | dot | index | number => exact h
  | construct | array | symbol | self | string | regexp | null | boolean => rfl
  | _ => cases he

end Place

/-- The tightness that a standing asks for. -/
def Standing.floor : Standing → Nat
  | .plain | .header => 0
  | .argument | .assigned | .key | .choice | .member => 1
  | .chained .. | .condition => 3
  | .operand => 4
  | .callee false | .object _ => 6
  | .callee true => 7

theorem Standing.floor_le_member (standing : Standing) : standing.floor ≤ Level.member.rank := by
  cases standing with
  | callee ofNew => cases ofNew <;> decide
  | _ => simp [floor, Level.rank]

theorem Standing.floor_le_primary (standing : Standing) : standing.floor ≤ Level.primary.rank :=
  Nat.le_succ_of_le standing.floor_le_member

/-- Without parentheses a form is as tight as its standing asks for. -/
theorem Form.floor_le_level {form : Form Node} {p : Place} (h : p.parens form = false)
    (hnew : p.standing = .callee true → form.isUnaryLike = false) :
    p.standing.floor ≤ form.level.rank := by
  obtain ⟨standing, leads, forInit⟩ := p
  have call : ∀ (tight : Bool), (standing = .callee true → tight = true) →
      standing.floor ≤ (if tight then Level.member else Level.call).rank := by
    intro tight ht
    cases standing with
    | callee ofNew =>
      cases ofNew with
      | true => simp [ht rfl, Standing.floor, Level.rank]
      | false => cases tight <;> decide
    | _ => cases tight <;> simp [Standing.floor, Level.rank]
  unfold level
  split
  case h_8 subject _ | h_9 subject _ =>
    have : (if subject.startsWithCall then Level.call else .member) =
        if !subject.startsWithCall then .member else .call := by
      cases subject.startsWithCall <;> rfl
    rw [this]
    refine call _ fun hs => ?_
    simpa [Place.parens, Place.parenthesizes, show standing = _ from hs] using h
  case h_7 =>
    refine call false fun hs => ?_
    simp [Place.parens, Place.parenthesizes, show standing = _ from hs] at h
  case h_10 | h_11 => exact standing.floor_le_member
  case h_12 => exact standing.floor_le_primary
  all_goals
    cases standing with
    | callee ofNew =>
      cases ofNew <;>
        simp_all [Place.parens, Place.parenthesizes, Standing.floor, Level.rank, isUnaryLike]
    | _ => simp_all [Place.parens, Place.parenthesizes, Standing.floor, Level.rank]

/-- Parentheses make a node as tight as its standing asks for. -/
theorem Node.floor_le {n : Node} {p : Place}
    (hnew : p.standing = .callee true → n.form.isUnaryLike = false) :
    p.standing.floor ≤ (n.levelAt p).rank := by
  rw [levelAt]
  split
  · exact p.standing.floor_le_primary
  · rename_i h
    exact Form.floor_le_level (Bool.of_not_eq_true h) hnew

theorem Form.binary_of_level {form : Form Node} {k : Nat} (h : form.level = .binary k) :
    ∃ operator left right, form = .binary operator left right ∧ k = power operator := by
  cases form with
  | binary operator left right => exact ⟨operator, left, right, rfl, (Level.binary.inj h).symm⟩
  | dot subject key | index subject key =>
    rw [level] at h
    split at h <;> cases h
  | _ => cases h

/-- A chain inside a chain binds tighter than it, or as tight on the left. -/
theorem Node.power_le {n : Node} (ho : n.form.IsOrdinary) {p : Place} (hp : p.IsKnown)
    {parent : String} {side : Bool} (hs : p.standing = .chained parent side) {k : Nat}
    (hk : n.levelAt p = .binary k) : power parent + (if side then 1 else 0) ≤ k := by
  obtain ⟨standing, leads, forInit⟩ := p
  obtain ⟨line, form⟩ := n
  obtain rfl : standing = .chained parent side := hs
  rw [levelAt] at hk
  split at hk
  · cases hk
  rename_i h
  obtain ⟨operator, left, right, rfl, rfl⟩ := Form.binary_of_level hk
  obtain ⟨outer, hout⟩ := Option.isSome_iff_exists.1 (show (precedence? parent).isSome = true from hp)
  obtain ⟨inner, hin⟩ := Option.isSome_iff_exists.1 (show (precedence? operator).isSome = true from ho.2)
  have hno : ¬(outer > inner ∨ outer = inner ∧ side = true) := by
    intro hen
    apply h
    have : Standing.encloses parent side operator = .ok true := by
      rw [Standing.encloses, hout, hin]
      simpa using hen
    simp only [Place.parens, Place.parenthesizes, Node.form, this]
    rfl
  rw [power, power, hout, hin]
  simp only [Option.getD_some]
  split <;> simp_all
  omega

/-! ## What comes after an expression -/

namespace Node

variable {strict : Bool}

theorem refused_mk (strict : Bool) (line : Option Nat) (form : Form Node) (standing : Standing) :
    (mk line form).refused strict standing =
      if standing.bare.parens form then [] else form.refused strict := by
  rw [refused, foldUp_mk]
  simp only [Form.map_map, Form.map_id]
  split
  · rfl
  · cases form with
    | sequence items => simp [Form.map, Form.refused, refused, Function.comp_def]
    | _ => rfl

/-- The only terminals that are ever refused after an expression. -/
def awkward : List Terminal :=
  [.dot, .plusPlus, .minusMinus, .kwIn, .kwInstanceof, .slash, .slashEqual]

theorem refused_subset_of {form : Form Node}
    (h : ∀ m ∈ form.children, ∀ standing, ∀ t ∈ m.refused strict standing, t ∈ awkward) :
    ∀ t ∈ form.refused strict, t ∈ awkward := by
  unfold Form.refused
  split
  case h_1 operand => exact h operand (by simp [Form.children]) _
  case h_2 right | h_3 right => exact h right (by simp [Form.children]) _
  case h_4 alternative => exact h alternative (by simp [Form.children]) _
  case h_5 items =>
    cases hlast : items.getLast? with
    | none => nofun
    | some last => exact h last (List.mem_of_getLast? hlast) _
  case h_8 => split <;> simp [awkward]
  all_goals simp [awkward]

theorem refused_subset (n : Node) (standing : Standing) :
    ∀ t ∈ n.refused strict standing, t ∈ awkward := by
  induction n using Node.induct generalizing standing with
  | step line form ih =>
    rw [refused_mk]
    split
    · nofun
    · exact refused_subset_of ih

theorem not_refused {n : Node} {standing : Standing} {t : Terminal} (ht : t ∉ awkward) :
    t ∉ n.refused strict standing :=
  fun h => ht (refused_subset n standing t h)

theorem not_form_refused {form : Form Node} {t : Terminal} (ht : t ∉ awkward) :
    t ∉ form.refused strict :=
  fun h => ht (refused_subset_of (fun m _ => refused_subset m) t h)

theorem dot_not_refused (n : Node) :
    .dot ∉ n.refused strict (.object true) := by
  obtain ⟨line, form⟩ := n
  rw [refused_mk]
  split
  · nofun
  · rename_i h
    unfold Form.refused
    split
    case h_7 => simp
    case h_8 => split <;> simp
    case h_9 => nofun
    all_goals simp [Place.parens, Place.parenthesizes, Standing.bare] at h

theorem refused_of_isTarget {n : Node} (h : n.form.isTarget = true) (standing : Standing) :
    n.refused strict standing = [] := by
  obtain ⟨line, form⟩ := n
  rw [refused_mk]
  split
  · rfl
  · cases form <;> first | rfl | cases h

theorem rank_of_isTarget {n : Node} (h : n.form.isTarget = true) (p : Place) :
    6 ≤ (n.levelAt p).rank := by
  obtain ⟨line, form⟩ := n
  rw [levelAt]
  split
  · decide
  · cases form with
    | symbol => exact Nat.le_refl 6 |>.trans (by decide : 6 ≤ Level.primary.rank)
    | dot | index =>
      simp only [Node.form, Form.level]
      split <;> decide
    | _ => cases h

end Node

end Debundle
