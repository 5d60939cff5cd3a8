import Debundle.Proofs.Normal.Passes

/-!
# Effects of a normal form

Calls, functions, throws, updates and deletions are what a program does, whatever its statements
look like. Listed from the top down, each with its line, they are the same before and after
normalising (`effects_normalize`): no rule loses one of them, has it twice or moves it past another.
-/
namespace Debundle

/-- What a node does. -/
inductive Effect where
  | call | construct | throw
  | function (kind : FunctionKind)
  | update (operator : String)
  | unary (operator : String)
  deriving DecidableEq

namespace Form

variable {α β : Type}

/-- Unary operators that change what they are applied to. -/
def isChanging (operator : String) : Bool :=
  operator = "++" || operator = "--" || operator = "delete"

def effect? : Form α → Option Effect
  | call .. => some .call
  | construct .. => some .construct
  | exit .throwing _ => some .throw
  | function kind _ _ _ => some (.function kind)
  | update operator _ => some (.update operator)
  | unary operator _ => if isChanging operator then some (.unary operator) else none
  | _ => none

theorem effect?_map (form : Form α) (f : α → β) : (form.map f).effect? = form.effect? := by
  cases form with
  | exit kind value => cases kind <;> rfl
  | _ => rfl

end Form

namespace Node

/-- The effects of a tree from the top down, with the lines of their nodes. -/
def effects (n : Node) : List (Effect × Option Nat) :=
  n.preorder.filterMap fun m => m.form.effect?.map (·, m.line)

theorem effects_mk (line : Option Nat) (form : Form Node) :
    (mk line form).effects =
      (form.effect?.map (·, line)).toList ++ form.children.flatMap effects := by
  rw [effects, preorder_mk, List.filterMap_cons, List.filterMap_flatten, List.map_map,
    List.flatMap_def, Node.form, Node.line]
  cases form.effect? <;> rfl

theorem effects_of_none {form : Form Node} (line : Option Nat) (h : form.effect? = none) :
    (mk line form).effects = form.children.flatMap effects := by
  rw [effects_mk, h]
  rfl

end Node

namespace Normal

open Node (effects_mk effects_of_none)

variable {P : Form Node → Prop} {c : Category} {n : Node} {line : Option Nat} {form : Form Node}
variable {rules : Rules} {labels : Bool} {split : Node → List Node}

/-! ## Expressions that do nothing -/

theorem effects_of_numeral? {value : Numeral} (h : Tidy P c n) (hn : numeral? n = some value) :
    n.effects = [] := by
  have hbroken := h.isBroken
  obtain ⟨line, form⟩ := n
  cases form with
  | number value => rw [effects_of_none line rfl]; rfl
  | loose => cases hbroken
  | _ => cases hn

theorem effects_of_name {role : Role} (h : Tidy P (.name role) n) : n.effects = [] := by
  have hfits := h.fits
  obtain ⟨line, form⟩ := n
  cases form with
  | symbol s => rw [effects_of_none line rfl]; rfl
  | _ => cases hfits

theorem effects_of_isLiteral (h : Tidy P c n) (hl : isLiteral n = true) : n.effects = [] := by
  have hbroken := h.isBroken
  obtain ⟨line, form⟩ := n
  cases form with
  | loose => cases hbroken
  | string | number | regexp | null | nan | infinity | boolean =>
    rw [effects_of_none line rfl]; rfl
  | _ => cases hl

theorem effects_of_isUndefined (h : Tidy P c n) (hu : isUndefined n = true) : n.effects = [] := by
  unfold isUndefined at hu
  split at hu
  · rw [effects_of_none _ rfl]; rfl
  · rw [effects_of_none _ rfl]; rfl
  · obtain ⟨d, hd⟩ := h.child (.head _)
    cases hd.isBroken
  · cases hu

theorem effects_of_isSettledTarget (h : Tidy P c n) (hs : isSettledTarget n = true) :
    n.effects = [] := by
  induction n using Node.induct generalizing c with
  | step line form ih =>
    have hbroken : form.isBroken = false := h.isBroken
    cases form with
    | dot object property =>
      rw [isSettledTarget_dot] at hs
      obtain ⟨d, hd⟩ := h.child (m := object) (.head _)
      rw [effects_of_none line rfl]
      simpa [Form.children] using ih object (.head _) hd hs
    | symbol | self => rw [effects_of_none line rfl]; rfl
    | loose => cases hbroken
    | _ =>
      rw [isSettledTarget, Node.foldUp_mk] at hs
      cases hs

/-! ## Rewriting a node -/

theorem effects_constant (h : Tidy P c (.mk line form)) :
    (Node.mk line (constant form)).effects = (Node.mk line form).effects := by
  unfold constant
  split
  · rename_i left right
    split
    · rename_i a b ha hb
      obtain ⟨d, hleft⟩ := h.child (m := left) (.head _)
      obtain ⟨e, hright⟩ := h.child (m := right) (.tail _ (.head _))
      have hnone : (Node.mk line (.binary "/" left right)).effects = [] := by
        rw [effects_of_none line rfl]
        simp [Form.children, effects_of_numeral? hleft ha, effects_of_numeral? hright hb]
      split_ifs
      · rw [hnone, effects_of_none line rfl]; rfl
      · rw [hnone, effects_of_none line rfl]; rfl
      · rfl
    · rfl
  · rename_i operand
    split
    · rename_i a ha
      obtain ⟨d, hoperand⟩ := h.child (m := operand) (.head _)
      have hnone : (Node.mk line (.unary "!" operand)).effects = [] := by
        rw [effects_of_none line rfl]
        simp [Form.children, effects_of_numeral? hoperand ha]
      split_ifs
      · rw [hnone, effects_of_none line rfl]; rfl
      · rw [hnone, effects_of_none line rfl]; rfl
      · rfl
    · rfl
  · rfl

theorem effects_simple (line : Option Nat) (n : Node) :
    (Node.mk line (.simple n)).effects = n.effects := by
  rw [effects_of_none line rfl]
  exact List.append_nil _

theorem effects_asStatement (h : Tidy P .expression n) : n.asStatement.effects = n.effects := by
  rw [asStatement_of_tidy h, effects_simple]

theorem effects_negation (h : Tidy P .expression n) : (negation n).effects = n.effects := by
  rw [negation_of_tidy h, effects_of_none n.line rfl]
  exact List.append_nil _

theorem effects_returning (h : Tidy P .expression n) : (returning line n).effects = n.effects := by
  rw [returning, isMissing_of_tidy h, Bool.or_false, effects_of_none line rfl]
  split_ifs with hu
  · exact (effects_of_isUndefined h hu).symm
  · exact List.append_nil _

theorem effects_choice (h : Tidy P c (.mk line form)) :
    (Node.mk line (choice line form)).effects = (Node.mk line form).effects := by
  obtain heq | ⟨rfl, ⟨l, a, b, rfl, ha, hb⟩ | ⟨l, a, b, rfl, ha, hb⟩ |
    ⟨l, a, b, d, rfl, ha, hb, hd⟩ | ⟨l, a, b, d, rfl, ha, hb, hd⟩⟩ := choice_cases h
  · rw [heq]
  · rw [choice, effects_simple, effects_of_none line rfl, effects_of_none l rfl]
    simp [Form.children, effects_asStatement hb]
  · rw [choice, effects_simple, effects_of_none line rfl, effects_of_none l rfl]
    simp [Form.children, effects_asStatement hb, effects_negation ha]
  · rw [choice, effects_simple, effects_of_none line rfl, effects_of_none l rfl]
    simp [Form.children, effects_asStatement hb, effects_asStatement hd]
  · have hchosen : (Node.mk l (.conditional a b d)).effects = _ := effects_of_none l rfl
    rw [choice, effects_of_none line rfl, effects_of_none line rfl]
    simp [Form.children, effects_returning hb, effects_returning hd, hchosen]

/-! ## Splitting statements -/

theorem effects_sequence (line : Option Nat) (items : List Node) :
    (Node.mk line (.sequence items)).effects = items.flatMap Node.effects :=
  effects_of_none line rfl

theorem flatMap_effects_asStatement {xs : List Node} (h : ∀ x ∈ xs, Tidy P .expression x) :
    (xs.map Node.asStatement).flatMap Node.effects = xs.flatMap Node.effects := by
  rw [List.flatMap_map]
  exact List.flatMap_congr fun x hx => effects_asStatement (h x hx)

theorem effects_fill {slot : Slot} {y : Node} (h : Tidy P .statement (slot.fill y))
    (hs : slot.isSettled = true) :
    ∃ after, ∀ x, (slot.fill x).effects = x.effects ++ after := by
  cases slot with
  | returned line => exact ⟨[], fun x => effects_of_none line rfl⟩
  | simple line => exact ⟨[], fun x => effects_of_none line rfl⟩
  | condition line body alternative => exact ⟨_, fun x => effects_of_none line rfl⟩
  | start line test step body => exact ⟨_, fun x => effects_of_none line rfl⟩
  | object line body => exact ⟨_, fun x => effects_of_none line rfl⟩
  | subject line branches => exact ⟨_, fun x => effects_of_none line rfl⟩
  | assigned line inner operator left =>
    obtain ⟨d, hassign⟩ := h.child (.head _)
    obtain ⟨e, hleft⟩ := hassign.child (m := left) (.head _)
    refine ⟨[], fun x => ?_⟩
    rw [Slot.fill, effects_simple, effects_of_none inner rfl]
    simp [Form.children, effects_of_isSettledTarget hleft hs]

theorem flatMap_effects_splitDeclarators {kind : String} {definitions : List Node}
    (hd : ∀ d ∈ definitions, Tidy P .definition d) (line : Option Nat) (current : List Node) :
    (splitDeclarators (fun ds => .mk line (.declare kind ds)) current definitions).flatMap
        Node.effects =
      current.reverse.flatMap Node.effects ++ definitions.flatMap Node.effects := by
  have declared : ∀ ds, (Node.mk line (.declare kind ds)).effects = ds.flatMap Node.effects :=
    fun ds => effects_of_none line rfl
  induction definitions generalizing current with
  | nil => simp [splitDeclarators, declared]
  | cons d rest ih =>
    rw [List.forall_mem_cons] at hd
    obtain hi | ⟨l, name, l', leading, last, rfl, -, -, hall⟩ := initial_cases hd.1
    · rw [splitDeclarators_plain hi, ih hd.2]
      simp
    · have hbefore : (if current.isEmpty then [] else
          [Node.mk line (.declare kind current.reverse)]).flatMap Node.effects =
          current.reverse.flatMap Node.effects := by
        cases current <;> simp [declared]
      have hname : name.effects = [] :=
        effects_of_name (hd.1.part (p := (.name .variable, name)) (.head _))
      have defined : ∀ x, (Node.mk l (.definition name (some x))).effects = x.effects := fun x => by
        rw [effects_of_none l rfl]
        simp [Form.children, hname]
      rw [splitDeclarators_sequence hall, List.flatMap_append, List.flatMap_append, hbefore,
        flatMap_effects_asStatement (List.forall_mem_append.1 hall).1, ih hd.2]
      simp [defined, effects_sequence]

theorem flatMap_effects_split? (h : Tidy P .statement n) {parts : List Node}
    (hs : split? n = some parts) : parts.flatMap Node.effects = n.effects := by
  obtain hn | ⟨slot, l, leading, last, rfl, hset, -, hall⟩ | ⟨line, kind, ds, rfl, -, hn⟩ :=
    split?_cases h
  · cases hn.symm.trans hs
  · cases (split?_fill hset l hall).symm.trans hs
    obtain ⟨after, hfill⟩ := effects_fill h hset
    rw [List.flatMap_append, flatMap_effects_asStatement (List.forall_mem_append.1 hall).1,
      List.flatMap_singleton, hfill, hfill, effects_sequence, List.flatMap_append,
      List.flatMap_singleton, List.append_assoc]
  · cases hn.symm.trans hs
    have hds : ∀ d ∈ ds, Tidy P .definition d := fun d hd =>
      h.part (p := (.definition, d)) (by simp [Node.form, Form.parts, Form.many, hd])
    rw [flatMap_effects_splitDeclarators hds, effects_of_none line rfl]
    rfl

theorem flatMap_effects_expand (hP : Stable P) (h : Tidy P .statement n) :
    (expand n).flatMap Node.effects = n.effects := by
  refine split?_induct hP (motive := fun n => (expand n).flatMap Node.effects = n.effects)
    (fun n h hs => ?_) (fun n parts h hs ih => ?_) h
  · rw [expand_of_none hs, List.flatMap_singleton]
  · rw [expand_of_some hP h hs, List.flatMap_assoc, List.flatMap_congr ih,
      flatMap_effects_split? h hs]

theorem flatMap_effects_splitVoid (h : Tidy P c n) :
    (splitVoid n).flatMap Node.effects = n.effects := by
  obtain hs | ⟨-, l, l', operand, rfl, ho, hs⟩ := splitVoid_cases h
  · rw [hs, List.flatMap_singleton]
  · have hvoid : (returnVoid l l' operand).effects = operand.effects := by
      have hunary : (Node.mk l' (.unary "void" operand)).effects = _ := effects_of_none l' rfl
      rw [returnVoid, effects_of_none l rfl]
      simp [Form.children, hunary]
    have hbare : (Node.mk l (.exit .returning none)).effects = [] := effects_of_none l rfl
    rw [hvoid]
    obtain ⟨hs, hl⟩ | hs := hs
    · rw [hs, List.flatMap_singleton, hbare, effects_of_isLiteral ho hl]
    · rw [hs]
      simp [effects_simple, hbare]

theorem effects_wrap {parts : List Node} (h : ∀ m ∈ parts, Tidy P .statement m) :
    (wrap n parts).effects = parts.flatMap Node.effects := by
  by_cases hl : parts.length = 1
  · obtain ⟨part, rfl⟩ := List.length_eq_one_iff.1 hl
    rw [wrap_singleton (h part (.head _)), List.flatMap_singleton]
  · rw [wrap_of_length_ne (fun m hm => ⟨_, h m hm⟩) hl]
    exact effects_of_none n.line rfl

theorem effect?_splitBodies : (splitBodies labels split form).effect? = form.effect? := by
  unfold splitBodies
  dsimp only
  split
  case h_10 => cases labels <;> rfl
  all_goals rfl

theorem effects_splitBodies (h : Tidy P c (.mk line form))
    (hb : ∀ n, Tidy P .branch n → split n = [n])
    (ht : ∀ n, Tidy P .statement n → ∀ m ∈ split n, Tidy P .statement m)
    (hs : ∀ n, Tidy P .statement n → (split n).flatMap Node.effects = n.effects) :
    (Node.mk line (splitBodies labels split form)).effects = (Node.mk line form).effects := by
  have hplace : ∀ p ∈ form.parts c,
      (replaced labels split form p).flatMap (fun q => q.2.effects) = p.2.effects := by
    intro p hp
    have hpart : Tidy P p.1 p.2 := h.part hp
    unfold replaced
    split_ifs with hkeep hlist
    · exact List.flatMap_singleton ..
    · have hstatement : Tidy P .statement p.2 := by simp_all
      rw [Form.many, List.flatMap_map]
      exact hs p.2 hstatement
    · have hstatement : Tidy P .statement p.2 := by simp_all
      rw [List.flatMap_singleton, effects_wrap (ht p.2 hstatement), hs p.2 hstatement]
  rw [effects_mk, effects_mk, effect?_splitBodies, ← Form.snd_parts c, ← Form.snd_parts c form,
    parts_splitBodies h hb, List.flatMap_map, List.flatMap_map, List.flatMap_assoc,
    List.flatMap_congr hplace]

/-! ## Whole trees -/

section Trees

variable (hP : Stable P) (hn : Names P rules)

include hP hn

theorem effects_settle (h : Tidy P c (.mk line form)) :
    (Node.mk line (settle rules line form)).effects = (Node.mk line form).effects := by
  have hconstants : (Node.mk line (afterConstants rules form)).effects =
      (Node.mk line form).effects := by
    unfold afterConstants
    split_ifs
    · exact effects_constant h
    · rfl
  have hchoice : (Node.mk line (afterChoice rules line form)).effects =
      (Node.mk line form).effects := by
    rw [← hconstants]
    unfold afterChoice
    split_ifs
    · exact effects_choice (tidy_afterConstants hP hn h)
    · rfl
  have hsplits : (Node.mk line (afterSplits rules line form)).effects =
      (Node.mk line form).effects := by
    rw [← hchoice]
    unfold afterSplits
    split_ifs
    · exact effects_splitBodies (tidy_afterChoice hP hn h) (fun _ => expand_of_branch)
        (fun _ => tidy_expand hP) fun _ => flatMap_effects_expand hP
    · rfl
  rw [settle_of_tidy hP hn h, ← hsplits]
  split_ifs
  · exact effects_splitBodies (tidy_afterSplits hP hn h) (fun _ => splitVoid_of_branch)
      (fun _ h _ => tidy_splitVoid hP h) fun _ => flatMap_effects_splitVoid
  · rfl

theorem effects_normalizeUpTo (h : Tidy P c n) (fuel : Nat) :
    (normalizeUpTo rules fuel n).effects = n.effects := by
  induction fuel generalizing c n with
  | zero => rfl
  | succ fuel ih =>
    obtain ⟨line, form⟩ := n
    have hbelow : ∀ m ∈ (settle rules line form).children,
        (normalizeUpTo rules fuel m).effects = m.effects := fun m hm => by
      obtain ⟨d, hd⟩ := (tidy_settle hP hn h).child hm
      exact ih hd
    rw [normalizeUpTo, ← effects_settle hP hn h, effects_mk, effects_mk, Form.effect?_map,
      Form.children_map, List.flatMap_map, List.flatMap_congr hbelow]

end Trees

end Normal

open Normal

/-- Normalising a program that was read, whether or not its names were resolved, and whichever rules
are applied, succeeds and keeps its effects: the calls, functions, throws, updates and deletions are
the same, on the same lines, in the same order. -/
theorem effects_normalize {file text : String} {t u : Node} (rules : Rules)
    (h : (parse file text).result = .ok t) (hu : u = t ∨ t.resolve = .ok u) :
    ∃ normal, u.normalize? rules = .ok normal ∧ normal.effects = u.effects := by
  have htidy := tidy_of_parse h hu
  exact ⟨u.normalize rules, normalize?_of_tidy htidy,
    effects_normalizeUpTo stable_true names_true htidy _⟩

/-- A condition that is a sequence, with effects in it and in both branches. -/
def busyProgram : String := "(f(), y--) ? new K : ++k;"

theorem effects_busyProgram :
    (parse unnamedFile busyProgram).result.toOption.map Node.effects =
      some [(.call, some 1), (.update "--", some 1), (.construct, some 1),
        (.unary "++", some 1)] := by
  decide +kernel

theorem effects_normalize_busyProgram :
    ∃ t, (parse unnamedFile busyProgram).result = .ok t ∧ t.effects.length = 4 ∧
      ∃ normal, t.normalize? ⟨true, true, true⟩ = .ok normal ∧ normal.effects = t.effects := by
  obtain ⟨t, ht, he⟩ := Option.map_eq_some_iff.1 effects_busyProgram
  have hparse := eq_ok_of_toOption ht
  exact ⟨t, hparse, he ▸ rfl, effects_normalize ⟨true, true, true⟩ hparse (.inl rfl)⟩

end Debundle
