import Debundle.Proofs.Normal.Semantics
import Debundle.Proofs.Tree.Tidy
import Debundle.Normal.Normalize

/-!
# Where statements stand

A statement stands in a list, under the control of another statement, or under a label. Splitting
statements changes a form in these places only (`parts_splitBodies`), and in a tidy tree no fault
ever comes up.
-/
namespace Debundle

namespace Form

variable {α : Type}

/-- The list of statements of a form. -/
def listed? : Form α → Option (List α)
  | program body | block body | branch _ body | tryBlock body _ _ | handler _ body
  | finalizer body | function _ _ _ body => some body
  | _ => none

/-- Puts other statements into the list of a form. -/
def withListed (body : List α) : Form α → Form α
  | block _ => block body
  | form => form.withBody body

/-- The statement that a loop or a `with` controls. -/
def controlled? : Form α → Option α
  | doWhile body _ | whileLoop _ body | forLoop _ _ _ body | forIn _ _ body
  | withObject _ body => some body
  | _ => none

/-- Puts another statement under the control of a form. -/
def withControlled (body : α) : Form α → Form α
  | doWhile _ condition => doWhile body condition
  | whileLoop condition _ => whileLoop condition body
  | forLoop init condition step _ => forLoop init condition step body
  | forIn init subject _ => forIn init subject body
  | withObject subject _ => withObject subject body
  | form => form

/-- The statements in the list or under the control of a form; one under a label aside. -/
def freeStatements : Form α → List α
  | program body | block body | branch _ body | tryBlock body _ _ | handler _ body
  | finalizer body | function _ _ _ body => body
  | doWhile body _ | whileLoop _ body | forLoop _ _ _ body | forIn _ _ body
  | withObject _ body => [body]
  | ifElse _ body alternative => body :: alternative.toList
  | _ => []

def isLabeled : Form α → Bool
  | labeled .. => true
  | _ => false

/-- All forms but names, operators, assignments, `with` statements and named constants. -/
def isFree : Form α → Bool
  | symbol _ | unary .. | binary .. | conditional .. | assign .. | withObject .. | nan
  | infinity => false
  | _ => true

theorem withListed_eq_self {form : Form α} {body : List α} (h : form.listed? = some body) :
    form.withListed body = form := by
  cases form <;> cases h <;> rfl

theorem withControlled_eq_self {form : Form α} {n : α} (h : form.controlled? = some n) :
    form.withControlled n = form := by
  cases form <;> cases h <;> rfl

theorem withControlled_map {β : Type} (form : Form α) (body : α) (f : α → β) :
    (form.withControlled body).map f = (form.map f).withControlled (f body) := by
  cases form <;> rfl

theorem freeStatements_of_listed? {form : Form α} {body : List α} (h : form.listed? = some body) :
    form.freeStatements = body := by
  cases form <;> cases h <;> rfl

theorem freeStatements_of_controlled? {form : Form α} {n : α} (h : form.controlled? = some n) :
    form.freeStatements = [n] := by
  cases form <;> cases h <;> rfl

theorem freeStatements_map {β : Type} (form : Form α) (f : α → β) :
    (form.map f).freeStatements = form.freeStatements.map f := by
  cases form with
  | ifElse condition body alternative => cases alternative <;> rfl
  | _ => rfl

theorem parts_withListed {form : Form α} {body : List α} (h : form.listed? = some body)
    (c : Category) :
    ∃ before after, (∀ p ∈ before ++ after, p.1 ≠ .statement) ∧
      ∀ ns, (form.withListed ns).parts c = before ++ many .statement ns ++ after := by
  cases form <;> cases h
  case program | block | finalizer =>
    exact ⟨[], [], nofun, fun ns => by simp [withListed, withBody, parts]⟩
  case branch test =>
    refine ⟨maybe .expression test, [], fun p hp => ?_,
      fun ns => by simp [withListed, withBody, parts]⟩
    rw [List.append_nil] at hp
    exact fst_of_mem_maybe hp ▸ nofun
  case tryBlock caught last =>
    refine ⟨[], maybe .handler caught ++ maybe .finalizer last, fun p hp => ?_,
      fun ns => by simp [withListed, withBody, parts]⟩
    simp only [List.nil_append, List.mem_append] at hp
    obtain hp | hp := hp <;> exact fst_of_mem_maybe hp ▸ nofun
  case handler caught =>
    exact ⟨[(.name .caught, caught)], [], by simp, fun ns => by simp [withListed, withBody, parts]⟩
  case function kind name parameters =>
    refine ⟨maybe (.name (if kind = .declaration then .functionName else .ownName)) name ++
      many (.name .parameter) parameters, [], fun p hp => ?_,
      fun ns => by simp [withListed, withBody, parts]⟩
    simp only [List.append_nil, List.mem_append] at hp
    obtain hp | hp := hp
    · exact fst_of_mem_maybe hp ▸ nofun
    · exact fst_of_mem_many hp ▸ nofun

theorem parts_withControlled {form : Form α} {n : α} (h : form.controlled? = some n)
    (c : Category) :
    ∃ before after, (∀ p ∈ before ++ after, p.1 ≠ .statement) ∧
      ∀ m, (form.withControlled m).parts c = before ++ [(.statement, m)] ++ after := by
  cases form <;> cases h
  case doWhile condition =>
    exact ⟨[], [(.expression, condition)], by simp, fun m => rfl⟩
  case whileLoop condition =>
    exact ⟨[(.expression, condition)], [], by simp, fun m => rfl⟩
  case forLoop init condition step =>
    refine ⟨maybe .initial init ++ maybe .expression condition ++ maybe .expression step, [],
      fun p hp => ?_, fun m => by simp [withControlled, parts]⟩
    simp only [List.append_nil, List.mem_append] at hp
    obtain (hp | hp) | hp := hp <;> exact fst_of_mem_maybe hp ▸ nofun
  case forIn init subject =>
    exact ⟨[(.pattern, init), (.expression, subject)], [], by simp, fun m => rfl⟩
  case withObject subject =>
    exact ⟨[(.expression, subject)], [], by simp, fun m => rfl⟩

theorem mem_middle {before after : List (Category × α)} (h : ∀ p ∈ before ++ after, p.1 ≠ .statement)
    {ns : List α} {n : α} :
    (.statement, n) ∈ before ++ many .statement ns ++ after ↔ n ∈ ns := by
  simp only [List.mem_append, many, List.mem_map, Prod.mk.injEq, true_and, exists_eq_right]
  refine ⟨?_, fun hn => .inl (.inr hn)⟩
  rintro ((hn | hn) | hn)
  · exact absurd rfl (h _ (List.mem_append_left _ hn))
  · exact hn
  · exact absurd rfl (h _ (List.mem_append_right _ hn))

theorem parts_ifElse (c : Category) (condition body : α) (alternative : Option α) :
    (ifElse condition body alternative).parts c =
      (.expression, condition) :: many .statement (body :: alternative.toList) :=
  rfl

end Form

/-- Conditions on forms that are not lost when statements are split and rewritten. -/
structure Stable (P : Form Node → Prop) : Prop where
  of_isFree : ∀ {form : Form Node}, form.isFree = true → P form
  negation : ∀ {operand : Node}, P (.unary "!" operand)
  withObject : ∀ {object object' body body' : Node}, P (.withObject object body) →
    P (.withObject object' body')
  assign : ∀ {operator : String} {left right : Node} {line : Option Nat} {items : List Node},
    P (.assign operator left (.mk line (.sequence items))) → P (.assign operator left right)

namespace Normal

variable {P : Form Node → Prop} {c : Category} {n : Node} {line : Option Nat} {form : Form Node}
variable {labels : Bool} {split : Node → List Node}

/-! ## Nothing is at fault in a tidy tree -/

theorem defect?_of_tidy (h : Tidy P c n) : n.form.defect? = none := by
  have := h.isBroken
  obtain ⟨line, form⟩ := n
  cases form with
  | defect => cases this
  | _ => rfl

theorem isAbsent_of_tidy (h : Tidy P c n) : n.form.isAbsent = false := by
  have := h.isBroken
  obtain ⟨line, form⟩ := n
  cases form with
  | absent => cases this
  | _ => rfl

theorem isMissing_of_tidy (h : Tidy P c n) : isMissing n = false := by
  have := isAbsent_of_tidy h
  obtain ⟨line, form⟩ := n
  cases form with
  | absent => cases this
  | _ => rfl

theorem firstFault?_of_tidy {ns : List Node} (h : ∀ n ∈ ns, ∃ c, Tidy P c n) :
    firstFault? ns = none := by
  refine List.findSome?_eq_none_iff.2 fun n hn => ?_
  obtain ⟨c, hc⟩ := h n hn
  exact defect?_of_tidy hc

theorem surface_of_tidy (h : Tidy P c (.mk line form)) : surface form = form := by
  have hnone : firstFault? form.children = none := firstFault?_of_tidy fun n hn => h.child hn
  rw [surface, hnone]

theorem listFault?_of_tidy {ns : List Node} (h : ∀ n ∈ ns, Tidy P c n) :
    Node.listFault? ns = none := by
  have hany : ns.any Node.isNoList = false := by
    refine List.any_eq_false.2 fun n hn => ?_
    have := isAbsent_of_tidy (h n hn)
    obtain ⟨line, form⟩ := n
    cases form with
    | absent => cases this
    | _ => simp [Node.isNoList, Node.form]
  simp [Node.listFault?, hany]

theorem fault?_of_tidy (h : Tidy P c n) : n.fault? = none := by
  refine List.findSome?_eq_none_iff.2 fun m hm => ?_
  obtain ⟨d, hd⟩ := h.of_mem_preorder hm
  exact defect?_of_tidy hd

/-! ## Statements in the places of others -/

theorem wrap_singleton {part : Node} (h : Tidy P c part) : wrap n [part] = part := by
  unfold wrap
  rw [firstFault?_of_tidy (by simpa using ⟨c, h⟩)]

theorem wrap_of_length_ne {parts : List Node} (h : ∀ m ∈ parts, ∃ c, Tidy P c m)
    (hl : parts.length ≠ 1) : wrap n parts = .mk n.line (.block parts) := by
  unfold wrap
  rw [firstFault?_of_tidy h]
  split <;> simp_all

theorem splitList_of_tidy {body : List Node} (h : ∀ n ∈ body, Tidy P c n) :
    splitList split body = body.flatMap split := by
  rw [splitList, listFault?_of_tidy h]

theorem splitBodies_listed {body : List Node} (h : form.listed? = some body) :
    splitBodies labels split form = form.withListed (splitList split body) := by
  cases form <;> cases h <;> rfl

theorem splitBodies_controlled (h : form.controlled? = some n) :
    splitBodies labels split form = form.withControlled (wrap n (split n)) := by
  cases form <;> cases h <;> rfl

theorem statements_cases (h : form.isBroken = false) :
    (∃ body, form.listed? = some body) ∨ (∃ n, form.controlled? = some n) ∨
      (∃ condition body alternative, form = .ifElse condition body alternative) ∨
      (∃ label body, form = .labeled label body) ∨
      (∃ subject branches, form = .switch subject branches) ∨
      (∀ labels split, splitBodies labels split form = form) ∧ form.freeStatements = [] ∧
        ∀ c, ∀ p ∈ form.parts c, p.1 ≠ .statement := by
  cases form
  case program body | block body | branch body | tryBlock body _ _ | handler body | finalizer body
    | function body => exact .inl ⟨_, rfl⟩
  case doWhile | whileLoop | forLoop | forIn | withObject => exact .inr (.inl ⟨_, rfl⟩)
  case ifElse => exact .inr (.inr (.inl ⟨_, _, _, rfl⟩))
  case labeled => exact .inr (.inr (.inr (.inl ⟨_, _, rfl⟩)))
  case switch => exact .inr (.inr (.inr (.inr (.inl ⟨_, _, rfl⟩))))
  case loose | absent | defect => cases h
  all_goals
    refine .inr (.inr (.inr (.inr (.inr ⟨fun _ _ => rfl, rfl, fun c p hp => ?_⟩))))
    obtain ⟨d, n⟩ := p
    rintro rfl
    simp only [Form.parts, Form.many, Form.maybe, List.mem_cons, List.mem_map, List.not_mem_nil,
      Prod.mk.injEq, reduceCtorEq, false_and, and_false, exists_false, or_false] at hp
  case declare => split_ifs at hp <;> simp at hp
  case property kind _ _ => cases kind <;> cases hp.1

theorem splitBodies_ifElse (condition body : Node) (alternative : Option Node) :
    splitBodies labels split (.ifElse condition body alternative) =
      .ifElse condition (wrap body (split body)) (alternative.map fun n => wrap n (split n)) :=
  rfl

/-! ## Splitting the statements of a form -/

/-- What comes into a place of a form whose statements are split. -/
def replaced (labels : Bool) (split : Node → List Node) (form : Form Node)
    (p : Category × Node) : List (Category × Node) :=
  if p.1 ≠ .statement || (!labels && form.isLabeled) then [p]
  else if form.listed?.isSome then Form.many .statement (split p.2)
  else [(.statement, wrap p.2 (split p.2))]

theorem replaced_of_ne {p : Category × Node} (h : p.1 ≠ .statement) :
    replaced labels split form p = [p] := by
  simp [replaced, h]

theorem flatMap_replaced_of_ne {ps : List (Category × Node)} (h : ∀ p ∈ ps, p.1 ≠ .statement) :
    ps.flatMap (replaced labels split form) = ps := by
  conv_rhs => rw [← List.flatMap_singleton' ps]
  exact List.flatMap_congr fun p hp => replaced_of_ne (h p hp)

theorem parts_splitBodies (h : Tidy P c (.mk line form))
    (hb : ∀ n, Tidy P .branch n → split n = [n]) :
    (splitBodies labels split form).parts c =
      (form.parts c).flatMap (replaced labels split form) := by
  have hbroken : form.isBroken = false := h.isBroken
  obtain ⟨body, hf⟩ | ⟨n, hf⟩ | ⟨condition, body, alternative, rfl⟩ | ⟨label, body, rfl⟩ |
    ⟨subject, branches, rfl⟩ | ⟨hf, -, hs⟩ := statements_cases hbroken
  · obtain ⟨before, after, hout, hparts⟩ := Form.parts_withListed hf c
    rw [List.forall_mem_append] at hout
    have hform : form.parts c = before ++ Form.many .statement body ++ after := by
      rw [← hparts, Form.withListed_eq_self hf]
    have htidy : ∀ n ∈ body, Tidy P .statement n := fun n hn =>
      h.part (p := (.statement, n)) (by simp [Node.form, hform, Form.many, hn])
    have hmany : (Form.many .statement body).flatMap (replaced labels split form) =
        Form.many .statement (body.flatMap split) := by
      have hl : form.isLabeled = false := by cases form <;> first | rfl | cases hf
      simp [replaced, Form.many, List.flatMap_map, List.map_flatMap, hf, hl]
    rw [splitBodies_listed hf, splitList_of_tidy htidy, hparts, hform, List.flatMap_append,
      List.flatMap_append, hmany, flatMap_replaced_of_ne hout.1, flatMap_replaced_of_ne hout.2]
  · obtain ⟨before, after, hout, hparts⟩ := Form.parts_withControlled hf c
    rw [List.forall_mem_append] at hout
    have hform : form.parts c = before ++ [(.statement, n)] ++ after := by
      rw [← hparts, Form.withControlled_eq_self hf]
    have hone : [(.statement, n)].flatMap (replaced labels split form) =
        [(.statement, wrap n (split n))] := by
      have hl : form.isLabeled = false := by cases form <;> first | rfl | cases hf
      have hn : form.listed? = none := by cases form <;> first | rfl | cases hf
      simp [replaced, hl, hn]
    rw [splitBodies_controlled hf, hparts, hform, List.flatMap_append, List.flatMap_append, hone,
      flatMap_replaced_of_ne hout.1, flatMap_replaced_of_ne hout.2]
  · cases alternative <;> cases labels <;> rfl
  · cases labels <;> rfl
  · have hbranch : ∀ n ∈ branches, Tidy P .branch n := fun n hn =>
      h.part (p := (.branch, n)) (by simp [Node.form, Form.parts, Form.many, hn])
    have hsplit : splitList split branches = branches := by
      rw [splitList_of_tidy hbranch]
      conv_rhs => rw [← List.flatMap_singleton' branches]
      exact List.flatMap_congr fun n hn => hb n (hbranch n hn)
    change (Form.switch subject (splitList split branches)).parts c = _
    rw [hsplit, flatMap_replaced_of_ne]
    intro p hp
    obtain rfl | hp := List.mem_cons.1 hp
    · simp
    · simp [Form.fst_of_mem_many hp]
  · rw [hf, flatMap_replaced_of_ne (hs c)]

theorem fitsIn_splitBodies : (splitBodies labels split form).fitsIn c = form.fitsIn c := by
  unfold splitBodies
  dsimp only
  split
  case h_8 kind name parameters body => cases kind <;> cases name <;> cases c <;> rfl
  case h_10 => cases labels <;> cases c <;> rfl
  all_goals first | rfl | (cases c <;> rfl)

theorem mem_replaced {p q : Category × Node} (h : q ∈ replaced labels split form p) :
    q = p ∧ (p.1 ≠ .statement ∨ labels = false ∧ form.isLabeled = true) ∨
      p.1 = .statement ∧ ((∃ m ∈ split p.2, q = (.statement, m)) ∨
        q = (.statement, wrap p.2 (split p.2))) := by
  unfold replaced at h
  split_ifs at h with hkeep hlist
  · exact .inl ⟨List.mem_singleton.1 h, by simpa using hkeep⟩
  · obtain ⟨m, hm, rfl⟩ := List.mem_map.1 h
    exact .inr ⟨by simp_all, .inl ⟨m, hm, rfl⟩⟩
  · exact .inr ⟨by simp_all, .inr (List.mem_singleton.1 h)⟩

theorem mem_freeStatements_iff {n : Node} (h : form.isBroken = false) :
    n ∈ form.freeStatements ↔ (.statement, n) ∈ form.parts c ∧ form.isLabeled = false := by
  obtain ⟨body, hf⟩ | ⟨n, hf⟩ | ⟨condition, body, alternative, rfl⟩ | ⟨label, body, rfl⟩ |
    ⟨subject, branches, rfl⟩ | ⟨-, hf, hs⟩ := statements_cases h
  · obtain ⟨before, after, hout, hparts⟩ := Form.parts_withListed hf c
    have hl : form.isLabeled = false := by cases form <;> first | rfl | cases hf
    rw [Form.freeStatements_of_listed? hf, ← Form.withListed_eq_self hf, hparts,
      Form.withListed_eq_self hf, hl, Form.mem_middle hout]
    simp
  · obtain ⟨before, after, hout, hparts⟩ := Form.parts_withControlled hf c
    have hl : form.isLabeled = false := by cases form <;> first | rfl | cases hf
    rw [Form.freeStatements_of_controlled? hf, ← Form.withControlled_eq_self hf, hparts,
      Form.withControlled_eq_self hf, hl]
    exact (@Form.mem_middle Node before after hout [n] _).symm.trans (by simp [Form.many])
  · simp [Form.freeStatements, Form.parts_ifElse, Form.many, Form.isLabeled]
  · simp [Form.freeStatements, Form.isLabeled]
  · simp [Form.freeStatements, Form.parts, Form.many]
  · simp only [hf, List.not_mem_nil, false_iff, not_and]
    exact fun hn => absurd rfl (hs c _ hn)

theorem tidy_of_mem_freeStatements (h : Tidy P c (.mk line form)) (hn : n ∈ form.freeStatements) :
    Tidy P .statement n :=
  h.part (p := (.statement, n)) ((mem_freeStatements_iff h.isBroken).1 hn).1

theorem isLabeled_splitBodies : (splitBodies labels split form).isLabeled = form.isLabeled := by
  unfold splitBodies
  dsimp only
  split
  case h_10 => cases labels <;> rfl
  all_goals rfl

theorem exists_of_mem_freeStatements (h : Tidy P c (.mk line form))
    (hs : (splitBodies labels split form).isBroken = false)
    (hb : ∀ n, Tidy P .branch n → split n = [n]) {m : Node}
    (hm : m ∈ (splitBodies labels split form).freeStatements) :
    ∃ n ∈ form.freeStatements, m ∈ split n ∨ m = wrap n (split n) := by
  have hbroken : form.isBroken = false := h.isBroken
  rw [mem_freeStatements_iff (c := c) hs, parts_splitBodies h hb, isLabeled_splitBodies,
    List.mem_flatMap] at hm
  obtain ⟨⟨p, hp, hm⟩, hl⟩ := hm
  have free : p.1 = .statement → p.2 ∈ form.freeStatements := fun hc =>
    (mem_freeStatements_iff (c := c) hbroken).2 ⟨hc ▸ hp, hl⟩
  obtain ⟨rfl, hc | ⟨-, hl'⟩⟩ | ⟨hc, ⟨k, hk, hm⟩ | hm⟩ := mem_replaced hm
  · exact absurd rfl hc
  · cases hl.symm.trans hl'
  · cases hm
    exact ⟨p.2, free hc, .inl hk⟩
  · cases hm
    exact ⟨p.2, free hc, .inr rfl⟩

theorem splitBodies_eq_self (h : Tidy P c (.mk line form))
    (hb : ∀ n, Tidy P .branch n → split n = [n]) (hs : ∀ n ∈ form.freeStatements, split n = [n])
    (hl : labels = true → ∀ label n, form = .labeled label n → split n = [n]) :
    splitBodies labels split form = form := by
  have hbroken : form.isBroken = false := h.isBroken
  have flat : ∀ {ns : List Node}, (∀ n ∈ ns, split n = [n]) → ns.flatMap split = ns := by
    intro ns hns
    conv_rhs => rw [← List.flatMap_singleton' ns]
    exact List.flatMap_congr hns
  have single : ∀ {d : Category} {n : Node}, Tidy P d n → split n = [n] →
      wrap n (split n) = n := fun ht hn => by rw [hn, wrap_singleton ht]
  obtain ⟨body, hf⟩ | ⟨n, hf⟩ | ⟨condition, body, alternative, rfl⟩ | ⟨label, body, rfl⟩ |
    ⟨subject, branches, rfl⟩ | ⟨hf, -⟩ := statements_cases hbroken
  · rw [Form.freeStatements_of_listed? hf] at hs
    have htidy : ∀ n ∈ body, Tidy P .statement n := fun n hn =>
      tidy_of_mem_freeStatements h (Form.freeStatements_of_listed? hf ▸ hn)
    rw [splitBodies_listed hf, splitList_of_tidy htidy, flat hs, Form.withListed_eq_self hf]
  · rw [Form.freeStatements_of_controlled? hf] at hs
    have htidy : Tidy P .statement n :=
      tidy_of_mem_freeStatements h (Form.freeStatements_of_controlled? hf ▸ .head _)
    rw [splitBodies_controlled hf, single htidy (hs n (.head _)), Form.withControlled_eq_self hf]
  · have htidy : ∀ n ∈ body :: alternative.toList, wrap n (split n) = n := fun n hn =>
      single (tidy_of_mem_freeStatements h hn) (hs n hn)
    rw [splitBodies_ifElse, htidy body (.head _)]
    cases alternative with
    | none => rfl
    | some other => rw [Option.map_some, htidy other (by simp)]
  · cases labels with
    | false => rfl
    | true =>
      have htidy : Tidy P .statement body := h.part (p := (.statement, body)) (.head _)
      change Form.labeled label (wrap body (split body)) = _
      rw [single htidy (hl rfl label body rfl)]
  · have hbranch : ∀ n ∈ branches, Tidy P .branch n := fun n hn =>
      h.part (p := (.branch, n)) (by simp [Node.form, Form.parts, Form.many, hn])
    change Form.switch subject (splitList split branches) = _
    rw [splitList_of_tidy hbranch, flat fun n hn => hb n (hbranch n hn)]
  · exact hf labels split

theorem tidy_wrap (hP : Stable P) {parts : List Node} (h : ∀ m ∈ parts, Tidy P .statement m) :
    Tidy P .statement (wrap n parts) := by
  by_cases hl : parts.length = 1
  · obtain ⟨part, rfl⟩ := List.length_eq_one_iff.1 hl
    rw [wrap_singleton (h part (.head _))]
    exact h part (.head _)
  · rw [wrap_of_length_ne (fun m hm => ⟨_, h m hm⟩) hl]
    exact .mk rfl (hP.of_isFree rfl) (by simpa [Form.parts, Form.many] using h)

theorem own_splitBodies (hP : Stable P) (h : P form) : P (splitBodies labels split form) := by
  unfold splitBodies
  dsimp only
  split
  case h_10 => cases labels <;> exact hP.of_isFree rfl
  case h_15 => exact hP.withObject h
  case h_18 => exact h
  all_goals exact hP.of_isFree rfl

theorem tidy_splitBodies (hP : Stable P) (h : Tidy P c (.mk line form))
    (hb : ∀ n, Tidy P .branch n → split n = [n])
    (hs : ∀ n, Tidy P .statement n → ∀ m ∈ split n, Tidy P .statement m) :
    Tidy P c (.mk line (splitBodies labels split form)) := by
  refine .mk (fitsIn_splitBodies.trans h.fits) (own_splitBodies hP h.own) fun q hq => ?_
  rw [parts_splitBodies h hb, List.mem_flatMap] at hq
  obtain ⟨p, hp, hq⟩ := hq
  have ht : Tidy P p.1 p.2 := h.part hp
  obtain ⟨rfl, -⟩ | ⟨hp, ⟨m, hm, rfl⟩ | rfl⟩ := mem_replaced hq
  · exact ht
  · exact hs p.2 (hp ▸ ht) m hm
  · exact tidy_wrap hP (hs p.2 (hp ▸ ht))

/-! ## Measures of trees -/

section Measures

variable {μ : Node → Nat}

theorem sum_children_splitBodies (h : Tidy P c (.mk line form))
    (hb : ∀ n, Tidy P .branch n → split n = [n]) :
    ((splitBodies labels split form).children.map μ).sum =
      ((form.parts c).map fun p =>
        ((replaced labels split form p).map fun q => μ q.2).sum).sum := by
  rw [← Form.snd_parts c, parts_splitBodies h hb, List.map_map, List.map_flatMap, List.flatMap_def,
    List.sum_flatten, List.map_map]
  rfl

theorem sum_replaced_le {p : Category × Node}
    (hp : p.1 = .statement → ((split p.2).map μ).sum ≤ μ p.2 ∧ μ (wrap p.2 (split p.2)) ≤ μ p.2) :
    ((replaced labels split form p).map fun q => μ q.2).sum ≤ μ p.2 := by
  unfold replaced
  split_ifs with hkeep hlist
  · simp
  · have := (hp (by simp_all)).1
    simpa [Form.many, Function.comp_def] using this
  · have := (hp (by simp_all)).2
    simpa using this

theorem sum_splitBodies_le (h : Tidy P c (.mk line form))
    (hb : ∀ n, Tidy P .branch n → split n = [n])
    (hle : ∀ n, Tidy P .statement n →
      ((split n).map μ).sum ≤ μ n ∧ μ (wrap n (split n)) ≤ μ n) :
    ((splitBodies labels split form).children.map μ).sum ≤ (form.children.map μ).sum := by
  rw [sum_children_splitBodies h hb, ← Form.snd_parts c form, List.map_map]
  refine List.sum_le_sum fun p hp => sum_replaced_le fun hs => hle p.2 ?_
  exact hs ▸ h.part hp

theorem exists_le_of_mem_splitBodies (h : Tidy P c (.mk line form))
    (hb : ∀ n, Tidy P .branch n → split n = [n])
    (hle : ∀ n, Tidy P .statement n →
      ((split n).map μ).sum ≤ μ n ∧ μ (wrap n (split n)) ≤ μ n) {m : Node}
    (hm : m ∈ (splitBodies labels split form).children) : ∃ k ∈ form.children, μ m ≤ μ k := by
  rw [← Form.snd_parts c, parts_splitBodies h hb, List.mem_map] at hm
  obtain ⟨q, hq, rfl⟩ := hm
  obtain ⟨p, hp, hq⟩ := List.mem_flatMap.1 hq
  refine ⟨p.2, by rw [← Form.snd_parts c]; exact List.mem_map_of_mem hp, ?_⟩
  obtain ⟨rfl, -⟩ | ⟨hs, ⟨m, hm, rfl⟩ | rfl⟩ := mem_replaced hq
  · exact le_rfl
  · exact (List.le_sum_of_mem (List.mem_map_of_mem hm)).trans (hle p.2 (hs ▸ h.part hp)).1
  · exact (hle p.2 (hs ▸ h.part hp)).2

theorem sum_splitBodies_lt (h : Tidy P c (.mk line form))
    (hb : ∀ n, Tidy P .branch n → split n = [n])
    (hle : ∀ n, Tidy P .statement n →
      ((split n).map μ).sum ≤ μ n ∧ μ (wrap n (split n)) ≤ μ n)
    (hn : n ∈ form.freeStatements)
    (hlt : ((split n).map μ).sum < μ n ∧ μ (wrap n (split n)) < μ n) :
    ((splitBodies labels split form).children.map μ).sum < (form.children.map μ).sum := by
  have hbroken : form.isBroken = false := h.isBroken
  rw [mem_freeStatements_iff (c := c) hbroken] at hn
  rw [sum_children_splitBodies h hb, ← Form.snd_parts c form, List.map_map]
  refine List.sum_lt_sum _ _ (fun p hp => sum_replaced_le fun hs => hle p.2 (hs ▸ h.part hp))
    ⟨(.statement, n), hn.1, ?_⟩
  unfold replaced
  rw [hn.2, Bool.and_false]
  split_ifs with hkeep hlist
  · simp at hkeep
  · simpa [Form.many, Function.comp_def] using hlt.1
  · simpa using hlt.2

end Measures

end Normal

end Debundle
