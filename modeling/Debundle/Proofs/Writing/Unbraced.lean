import Debundle.Proofs.Writing.RoundTrip

/-!
# Statements without braces

`Node.Similar` is the smallest congruence of trees for which empty statements in lists, braces
around a controlled statement and lines are no matter. The tree that is read from the text of a
faithful tree is similar to it, also if controlled statements are written without braces, so every
`else` stays with its `if` (`parse_print_unbraced`).
-/
namespace Debundle

namespace Form

/-- A form without the empty statements of its lists. -/
def withoutEmpty : Form Node → Form Node
  | program body => program (body.filter (!·.form.isEmpty))
  | block body => block (body.filter (!·.form.isEmpty))
  | branch test body => branch test (body.filter (!·.form.isEmpty))
  | tryBlock body caught last => tryBlock (body.filter (!·.form.isEmpty)) caught last
  | handler caught body => handler caught (body.filter (!·.form.isEmpty))
  | finalizer body => finalizer (body.filter (!·.form.isEmpty))
  | function kind name parameters body =>
    function kind name parameters (body.filter (!·.form.isEmpty))
  | form => form

/-- What stands around a controlled statement. -/
inductive Controls : (Node → Form Node) → Prop
  | doWhile (test : Node) : Controls (.doWhile · test)
  | whileLoop (test : Node) : Controls (.whileLoop test ·)
  | forLoop (init test step : Option Node) : Controls (.forLoop init test step ·)
  | forIn (init object : Node) : Controls (.forIn init object ·)
  | withObject (object : Node) : Controls (.withObject object ·)
  | consequent (test : Node) (other : Option Node) : Controls (.ifElse test · other)
  | alternative (test body : Node) : Controls (.ifElse test body <| some ·)

end Form

namespace Node

/-- Trees that differ only in lines, in empty statements of lists and in braces around controlled
statements. -/
inductive Similar : Node → Node → Prop
  | refl (n : Node) : Similar n n
  | symm {n m : Node} (h : Similar n m) : Similar m n
  | trans {n m k : Node} (h : Similar n m) (h' : Similar m k) : Similar n k
  | congr (line line' : Option Nat) (form : Form (Node × Node))
      (h : ∀ p ∈ form.children, Similar p.1 p.2) :
      Similar (mk line (form.map Prod.fst)) (mk line' (form.map Prod.snd))
  | withoutEmpty (line : Option Nat) (form : Form Node) :
      Similar (mk line form) (mk line form.withoutEmpty)
  | braces {around : Node → Form Node} (h : Form.Controls around) (line : Option Nat) (body : Node) :
      Similar (mk line (around body)) (mk line (around (mk none (.block [body]))))

namespace Similar

theorem map (line line' : Option Nat) {form : Form Node} {f : Node → Node}
    (h : ∀ n ∈ form.children, Similar n (f n)) :
    Similar (mk line form) (mk line' (form.map f)) := by
  have := congr line line' (form.map fun n => (n, f n)) fun p hp => by
    rw [Form.children_map] at hp
    obtain ⟨n, hn, rfl⟩ := List.mem_map.1 hp
    exact h n hn
  simpa using this

theorem unplaced (n : Node) : Similar n n.unplaced := by
  induction n using Node.induct with
  | step line form ih =>
    rw [unplaced_mk]
    exact map line none ih

theorem around {around : Node → Form Node} (h : Form.Controls around) (line : Option Nat)
    {n m : Node} (hn : Similar n m) : Similar (mk line (around n)) (mk line (around m)) := by
  have both : ∀ o : Option Node, ∀ p ∈ (o.map fun n => (n, n)).toList, Similar p.1 p.2 := by
    intro o p hp
    cases o with
    | none => cases hp
    | some k =>
      obtain rfl := List.mem_singleton.1 hp
      exact .refl k
  have same : ∀ o : Option Node, (o.map fun n => (n, n)).map Prod.fst = o ∧
      (o.map fun n => (n, n)).map Prod.snd = o := by
    intro o
    cases o <;> exact ⟨rfl, rfl⟩
  cases h with
  | doWhile test =>
    exact congr line line (.doWhile (n, m) (test, test)) (by simp [Form.children, hn, refl])
  | whileLoop test =>
    exact congr line line (.whileLoop (test, test) (n, m)) (by simp [Form.children, hn, refl])
  | forLoop init test step =>
    have := congr line line (.forLoop (init.map fun n => (n, n)) (test.map fun n => (n, n))
      (step.map fun n => (n, n)) (n, m)) (by
        simp only [Form.children, List.mem_append, List.mem_singleton]
        rintro p (((hp | hp) | hp) | rfl)
        exacts [both init p hp, both test p hp, both step p hp, hn])
    simpa only [Form.map, same] using this
  | forIn init object =>
    exact congr line line (.forIn (init, init) (object, object) (n, m))
      (by simp [Form.children, hn, refl])
  | withObject object =>
    exact congr line line (.withObject (object, object) (n, m)) (by simp [Form.children, hn, refl])
  | consequent test other =>
    have := congr line line (.ifElse (test, test) (n, m) (other.map fun n => (n, n))) (by
      simp only [Form.children, List.mem_cons]
      rintro p (rfl | rfl | hp)
      exacts [.refl _, hn, both other p hp])
    simpa only [Form.map, same] using this
  | alternative test body =>
    exact congr line line (.ifElse (test, test) (body, body) (some (n, m)))
      (by simp [Form.children, hn, refl])

end Similar

/-! ## The tree that is read -/

variable {style : Style}

theorem isEmpty_settled (n : Node) : (n.settled style).form.isEmpty = n.form.isEmpty := by
  obtain ⟨line, form⟩ := n
  rw [settled_mk]
  cases form <;> rfl

theorem kept_eq_filter (ns : List Node) :
    kept (ns.map fun n => (n, n.settled style)) =
      (ns.map (settled style)).filter (!·.form.isEmpty) := by
  rw [kept_map, List.filter_map]
  congr 1
  exact List.filter_congr fun n _ => by simp [isEmpty_settled]

theorem similar_sheltered {around : Node → Form Node} (h : Form.Controls around) (n : Node) :
    Similar (mk none (around (n.settled style)))
      (mk none (around (sheltered (n, n.settled style)))) := by
  unfold sheltered
  split
  · rename_i he
    have hsettled : n.settled style = mk none .empty := by
      obtain ⟨line, form⟩ := n
      obtain rfl : form = .empty := he
      rw [settled_mk]
      rfl
    rw [hsettled]
    exact (Similar.braces h none _).trans (.around h none (.withoutEmpty none (.block [mk none .empty])))
  · exact .refl _
  · exact .braces h none _

theorem similar_governed (style : Style) {around : Node → Form Node} (h : Form.Controls around)
    (n : Node) : Similar (mk none (around (n.settled style)))
      (mk none (around (governed style (n, n.settled style)))) := by
  unfold governed
  split
  · exact similar_sheltered h n
  · exact .refl _

theorem similar_settled (style : Style) (n : Node) : Similar n (n.settled style) := by
  induction n using Node.induct with
  | step line form ih =>
    refine (Similar.map line none (f := settled style) ih).trans ?_
    rw [settled_mk]
    have bodies : ∀ form' : Form Node, settledForm style (form.map fun n => (n, n.settled style)) =
        form'.withoutEmpty → form.map (settled style) = form' →
        Similar (mk none (form.map (settled style)))
          (mk none (settledForm style (form.map fun n => (n, n.settled style)))) := by
      rintro form' h rfl
      rw [h]
      exact .withoutEmpty none _
    cases form with
    | program body | block body | finalizer body | handler _ body | tryBlock body | function _ _ _ body =>
      refine bodies _ ?_ rfl
      simp [settledForm, Form.map, Form.withoutEmpty, kept_eq_filter, Function.comp_def]
    | doWhile body test => exact similar_sheltered (.doWhile _) body
    | whileLoop test body => exact similar_governed style (.whileLoop _) body
    | forLoop init test step body =>
      have := similar_governed style (.forLoop (init.map (settled style))
        (test.map (settled style)) (step.map (settled style))) body
      simpa [settledForm, Form.map, Function.comp_def] using this
    | forIn init object body => exact similar_governed style (.forIn _ _) body
    | withObject object body => exact similar_governed style (.withObject _) body
    | ifElse test body other =>
      cases other with
      | none => exact similar_governed style (.consequent _ none) body
      | some other =>
        have first : Similar (mk none (.ifElse (test.settled style) (body.settled style)
            (some (other.settled style)))) (mk none (.ifElse (test.settled style)
              (if Layout.capturesElse body then sheltered (body, body.settled style)
                else governed style (body, body.settled style)) (some (other.settled style)))) := by
          split
          · exact similar_sheltered (.consequent _ _) body
          · exact similar_governed style (.consequent _ _) body
        have second : ∀ m, Similar (mk none (.ifElse (test.settled style) m
            (some (other.settled style)))) (mk none (.ifElse (test.settled style) m
              (some (if Layout.isIf (other, fun _ => []) then other.settled style
                else governed style (other, other.settled style))))) := by
          intro m
          split
          · exact .refl _
          · exact similar_governed style (.alternative _ _) other
        exact first.trans (second _)
    | _ => simpa [settledForm, Form.map, Function.comp_def] using Similar.refl _

/-! ## Which `else` belongs to which `if` -/

/-- An `if` by what is chosen between in its parts: the condition, the statement and, if there is
one, the alternative. -/
inductive Choice where
  | mk (test body : List Choice) (alternative : Option (List Choice))

end Node

/-- The choices of a form, by those of its children. -/
def Form.choices {α : Type} (f : α → List Node.Choice) : Form α → List Node.Choice
  | ifElse test body alternative => [.mk (f test) (f body) (alternative.map f)]
  | form => form.children.flatMap f

theorem Form.choices_map {α β : Type} (form : Form α) (f : β → List Node.Choice) (g : α → β) :
    (form.map g).choices f = form.choices fun a => f (g a) := by
  cases form with
  | ifElse test body alternative => cases alternative <;> rfl
  | _ => simp [map, choices, children, List.flatMap_map, Option.toList_map]

theorem Form.choices_congr {α : Type} {form : Form α} {f g : α → List Node.Choice}
    (h : ∀ a ∈ form.children, f a = g a) : form.choices f = form.choices g := by
  cases form with
  | ifElse test body alternative =>
    have halt : alternative.map f = alternative.map g := by
      cases alternative with
      | none => rfl
      | some a => exact congrArg some (h a (by simp [children]))
    rw [choices, choices, h test (by simp [children]), h body (by simp [children]), halt]
  | _ => exact List.flatMap_congr h

namespace Node

/-- The `if` statements of a tree that stand in no other one. -/
def choices : Node → List Choice :=
  foldUp fun _ form => form.choices Prod.snd

theorem choices_mk (line : Option Nat) (form : Form Node) :
    (mk line form).choices = form.choices choices := by
  rw [choices, foldUp_mk, Form.choices_map]

theorem flatMap_filter_isEmpty (ns : List Node) :
    (ns.filter (!·.form.isEmpty)).flatMap choices = ns.flatMap choices := by
  induction ns with
  | nil => rfl
  | cons n ns ih =>
    rw [List.filter_cons, List.flatMap_cons]
    split
    · rw [List.flatMap_cons, ih]
    · rename_i he
      obtain ⟨line, form⟩ := n
      cases form with
      | empty => rw [ih, choices_mk]; rfl
      | _ => exact absurd rfl he

theorem choices_braces {around : Node → Form Node} (h : Form.Controls around) (line : Option Nat)
    (n : Node) :
    (mk line (around (mk none (.block [n])))).choices = (mk line (around n)).choices := by
  have hblock : (mk none (.block [n])).choices = n.choices := by
    rw [choices_mk, Form.choices, Form.children, List.flatMap_singleton]
    nofun
  rw [choices_mk, choices_mk]
  cases h <;> simp only [Form.choices, Form.children, hblock, List.flatMap_cons, List.flatMap_append, Option.map_some]

theorem Similar.choices_eq {n m : Node} (h : Similar n m) : n.choices = m.choices := by
  induction h with
  | refl => rfl
  | symm _ ih => exact ih.symm
  | trans _ _ ih ih' => exact ih.trans ih'
  | congr line line' form _ ih =>
    rw [choices_mk, choices_mk, Form.choices_map, Form.choices_map]
    exact Form.choices_congr ih
  | withoutEmpty line form =>
    rw [choices_mk, choices_mk]
    cases form <;> simp [Form.withoutEmpty, Form.choices, Form.children, flatMap_filter_isEmpty]
  | braces h line body => exact (choices_braces h line body).symm

end Node

/-- Also without braces an `else` is read back as that of its own `if`. -/
theorem parse_print_unbraced (style : Style) {t : Node}
    (h : IsFaithful (!style.beautify) .program t) (file : String) :
    ∃ text t', t.print { style with bracketize := false } = .ok text ∧
      (parse file text).result = .ok t' ∧ t.Similar t' ∧ t.choices = t'.choices := by
  obtain ⟨text, t', htext, ht', hu⟩ := @parse_print { style with bracketize := false } t h file
  have hsimilar : t.Similar t' := (t.similar_settled _).trans
    ((Node.Similar.unplaced _).trans (hu ▸ (Node.Similar.unplaced t').symm))
  exact ⟨text, t', htext, ht', hsimilar, hsimilar.choices_eq⟩

/-- The program `if (a) { while (b) if (c) d; } else ;` without its braces. -/
def danglingElse : Node :=
  .mk none (.program [.mk none (.ifElse (.mk none (.symbol ⟨.reference, "a", none, none⟩))
    (.mk none (.whileLoop (.mk none (.symbol ⟨.reference, "b", none, none⟩))
      (.mk none (.ifElse (.mk none (.symbol ⟨.reference, "c", none, none⟩))
        (.mk none (.simple (.mk none (.symbol ⟨.reference, "d", none, none⟩)))) none))))
    (some (.mk none .empty)))])

theorem parse_print_unbraced_danglingElse :
    ∃ text t', danglingElse.print { bracketize := false } = .ok text ∧
      (parse unnamedFile text).result = .ok t' ∧ danglingElse.Similar t' ∧
      danglingElse.choices = t'.choices := by
  have name : ∀ k ∈ ["a", "b", "c", "d"],
      IsFaithful false .expression (.mk none (.symbol ⟨.reference, k, none, none⟩)) := fun k hk =>
    isFaithful_name none (isIdentifier_of (by revert k; decide))
  have program : IsFaithful false .program danglingElse := by
    refine .mk rfl trivial (List.forall_mem_cons.2 ⟨.mk rfl trivial ?_, nofun⟩)
    refine List.forall_mem_cons.2 ⟨name "a" (by decide), List.forall_mem_cons.2
      ⟨.mk rfl trivial ?_, List.forall_mem_cons.2 ⟨.mk rfl trivial nofun, nofun⟩⟩⟩
    refine List.forall_mem_cons.2 ⟨name "b" (by decide), List.forall_mem_cons.2
      ⟨.mk rfl trivial ?_, nofun⟩⟩
    refine List.forall_mem_cons.2 ⟨name "c" (by decide), List.forall_mem_cons.2
      ⟨.mk rfl trivial ?_, nofun⟩⟩
    exact List.forall_mem_cons.2 ⟨name "d" (by decide), nofun⟩
  exact parse_print_unbraced {} program unnamedFile

/-- A slash after a function is taken for the beginning of a regular expression here, too. -/
theorem quotient_not_read_unbraced :
    quotient.print { bracketize := false } = .ok "x = -function() \x7b\x7d / 2 / 3;" ∧
      (parse unnamedFile "x = -function() \x7b\x7d / 2 / 3;").result matches .error _ := by
  decide +kernel

end Debundle
