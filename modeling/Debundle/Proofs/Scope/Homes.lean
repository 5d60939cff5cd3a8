import Debundle.Proofs.Tree.Shape
import Debundle.Scope.Resolve

/-!
# Resolving keeps shapes

Resolving a shaped program never fails. It keeps the shape and gives every name a home
(`exists_resolve`).
-/
namespace Debundle

namespace Form

variable {α β : Type}

theorem map_snd_slotted (start : Nat) (items : List α) :
    (enumerate.slotted start items).map Prod.snd = items :=
  List.map_snd_zip (by simp)

theorem slotted_map (start : Nat) (items : List α) (f : α → β) :
    enumerate.slotted start (items.map f) =
      (enumerate.slotted start items).map fun p => (p.1, f p.2) := by
  simp only [enumerate.slotted, List.length_map, List.zip_map_right]
  rfl

theorem map_slotted (start : Nat) (items : List α) (f : Nat × α → β) :
    (enumerate.slotted start items).map f = items.mapIdx fun i a => f (start + i, a) := by
  induction items generalizing start with
  | nil => rfl
  | cons a items ih =>
    have hslotted : enumerate.slotted start (a :: items) =
        (start, a) :: enumerate.slotted (start + 1) items := rfl
    rw [hslotted, List.map_cons, ih, List.mapIdx_cons]
    simp only [Nat.add_zero, Nat.add_assoc, Nat.add_comm 1]

theorem le_of_mem_slotted {start : Nat} {items : List α} {p : Nat × α}
    (h : p ∈ enumerate.slotted start items) : start ≤ p.1 := by
  have := (List.of_mem_zip h).1
  simp only [List.mem_range'_1] at this
  exact this.1

attribute [local simp] map enumerate

@[simp] theorem map_snd_enumerate (form : Form α) : form.enumerate.map Prod.snd = form := by
  cases form <;> simp [map_snd_slotted, Function.comp_def]

theorem enumerate_map (form : Form α) (f : α → β) :
    (form.map f).enumerate = form.enumerate.map fun p => (p.1, f p.2) := by
  cases form <;> simp [slotted_map, Function.comp_def]

theorem snd_mem_of_enumerate {form : Form α} {p : Nat × α} (h : p ∈ form.enumerate.children) :
    p.2 ∈ form.children := by
  rw [← map_snd_enumerate form, children_map]
  exact List.mem_map_of_mem h

end Form

namespace Scope

/-- The scopes around the child in a slot of a form. The name of a declared function belongs to
the scope that the declaration is in. -/
def framesAt (form : Form Node) (frames : List Frame) (address : List Nat) (slot : Nat) :
    List Frame :=
  match form with
  | .function kind name parameters body =>
    if kind = .declaration ∧ slot = 0 then frames
    else ⟨address, functionNames kind name parameters body, true⟩ :: frames
  | .handler caught _ => ⟨address, symbolNames caught, false⟩ :: frames
  | _ => frames

theorem resolveIn_symbol (line : Option Nat) (s : Symbol) (frames : List Frame)
    (address : List Nat) :
    resolveIn (.mk line (.symbol s)) frames address =
      .mk line (.symbol { s with home := some (symbolHome frames s) }) := by
  rw [resolveIn, Node.foldUp_mk]
  rfl

theorem resolveIn_mk (line : Option Nat) {form : Form Node} (h : ∀ s, form ≠ .symbol s)
    (frames : List Frame) (address : List Nat) :
    resolveIn (.mk line form) frames address =
      .mk line (form.enumerate.map fun child =>
        resolveIn child.2 (framesAt form frames address child.1) (address ++ [child.1])) := by
  rw [resolveIn, Node.foldUp_mk, ← resolveIn]
  cases form with
  | symbol s => exact absurd rfl (h s)
  | function kind name parameters body =>
    simp only [Form.map, Form.enumerate, Form.slotted_map, List.map_map, Option.map_map,
      Function.comp_def, List.map_id', Option.map_id', List.length_map, framesAt]
    congr 2
    · by_cases hk : kind = .declaration <;> simp [hk]
    · refine List.map_congr_left fun p hp => ?_
      have : p.1 ≠ 0 := Nat.ne_of_gt (Form.le_of_mem_slotted hp)
      simp [this]
    · refine List.map_congr_left fun p hp => ?_
      have : p.1 ≠ 0 := fun h0 => by
        have := Form.le_of_mem_slotted hp
        omega
      simp [this]
  | _ =>
    simp [Form.map, Form.enumerate, Form.slotted_map, framesAt, Function.comp_def]

end Scope

/-- A name has a home. -/
def Form.IsResolved : Form Node → Prop
  | .symbol s => s.home.isSome = true
  | _ => True

/-- A tree in which every name has a home. -/
abbrev ResolvedAs : Category → Node → Prop :=
  Shaped Form.IsResolved

theorem Form.isResolved_map {α : Type} {form : Form α} (h : ∀ s, form ≠ .symbol s)
    (f : α → Node) : (form.map f).IsResolved := by
  cases form with
  | symbol s => exact absurd rfl (h s)
  | _ => trivial

namespace Scope

variable {P : Form Node → Prop} {c : Category} {n : Node}

theorem shaped_resolveIn (h : Shaped P c n) (frames : List Frame) (address : List Nat) :
    ResolvedAs c (resolveIn n frames address) := by
  induction h generalizing frames address with
  | @mk c line form fits own parts ih =>
    by_cases hs : ∃ s, form = .symbol s
    · obtain ⟨s, rfl⟩ := hs
      rw [resolveIn_symbol]
      refine .mk ?_ rfl (by simp [Form.parts])
      cases c <;> simp_all [Form.isOf, Form.isExpression, Form.isBodyStatement, Form.isHole,
        Form.isDeclaration, Form.isSingleDeclaration]
    · have hs : ∀ s, form ≠ .symbol s := fun s h => hs ⟨s, h⟩
      have he : ∀ s, form.enumerate ≠ .symbol s := fun s h => by
        have := Form.map_snd_enumerate form
        rw [h] at this
        exact hs s this.symm
      rw [resolveIn_mk line hs]
      refine .mk ?_ (Form.isResolved_map he _) ?_
      · rw [Form.isOf_map, ← Form.isOf_map c form.enumerate Prod.snd, Form.map_snd_enumerate]
        exact fits
      · rw [Form.parts_map]
        intro p hp
        obtain ⟨q, hq, rfl⟩ := List.mem_map.1 hp
        have hmem : (q.1, q.2.2) ∈ form.parts c := by
          have := List.mem_map_of_mem (f := fun p : Category × Nat × Node => (p.1, p.2.2)) hq
          rwa [← Form.parts_map c form.enumerate Prod.snd, Form.map_snd_enumerate] at this
        exact ih _ hmem _ _

/-! ## Nothing is at fault in a shaped program -/

theorem isNamed_of_shaped {role : Role} (h : Shaped P (.name role) n) : isNamed n = true := by
  obtain ⟨line, form⟩ := n
  cases form with
  | symbol s => rfl
  | _ => cases h.fits

theorem isAbsent_of_shaped (h : Shaped P c n) : n.form.isAbsent = false := by
  have := h.regular
  obtain ⟨line, form⟩ := n
  cases form with
  | absent => cases this
  | _ => rfl

theorem isNoList_of_shaped (h : Shaped P c n) : n.isNoList = false := by
  have := isAbsent_of_shaped h
  obtain ⟨line, form⟩ := n
  cases form with
  | absent => cases this
  | _ => rfl

theorem listFault?_of_shaped {ns : List Node} (h : ∀ n ∈ ns, Shaped P c n) :
    Node.listFault? ns = none := by
  have hany : ns.any Node.isNoList = false :=
    List.any_eq_false.2 fun n hn => by simp [isNoList_of_shaped (h n hn)]
  simp [Node.listFault?, hany]

theorem name_of_declaration {name : Option Node} {parameters body : List Node}
    {line : Option Nat} (h : Shaped P c (.mk line (.function .declaration name parameters body))) :
    name.any isNamed = true := by
  cases name with
  | none => cases c <;> cases h.fits
  | some name => exact isNamed_of_shaped (h.part (p := (.name .functionName, name)) (by
      simp [Form.parts, Form.maybe, Node.form]))

end Scope

theorem Node.walk_subset_preorder (prune : Node → Bool) (n : Node) :
    n.walk prune ⊆ n.preorder := by
  induction n using Node.induct with
  | step line form ih =>
    rw [walk_mk, preorder_mk]
    refine List.cons_subset_cons _ ?_
    split
    · simp
    · intro m hm
      obtain ⟨below, hb, hm⟩ := List.mem_flatten.1 hm
      obtain ⟨k, hk, rfl⟩ := List.mem_map.1 hb
      exact List.mem_flatten.2 ⟨_, List.mem_map_of_mem hk, ih k hk hm⟩

namespace Scope

variable {P : Form Node → Prop} {c : Category} {n : Node}

theorem isUndeclarable_of_shaped (h : Shaped P c n) : isUndeclarable n = false := by
  rw [isUndeclarable, isAbsent_of_shaped h, Bool.false_or, List.any_eq_false]
  intro m hm
  obtain ⟨c', hm⟩ := h.of_mem_preorder (n.walk_subset_preorder _ hm)
  obtain ⟨line, form⟩ := m
  cases form with
  | function kind name =>
    cases kind with
    | declaration => simp [Node.form, name_of_declaration hm]
    | _ => simp [Node.form]
  | definition name value =>
    have hn : isNamed name = true :=
      isNamed_of_shaped (hm.part (p := (.name .variable, name)) (by simp [Form.parts, Node.form]))
    simp [Node.form, hn]
  | _ => simp [Node.form]

theorem bodyFault?_of_shaped {body : List Node} (h : ∀ n ∈ body, Shaped P c n) :
    bodyFault? body = none := by
  have hany : body.any isUndeclarable = false :=
    List.any_eq_false.2 fun n hn => by simp [isUndeclarable_of_shaped (h n hn)]
  simp [bodyFault?, listFault?_of_shaped h, hany]

theorem openingFault?_of_shaped (h : Shaped P c n) : openingFault? n = none := by
  obtain ⟨line, form⟩ := n
  cases form with
  | function kind name parameters body =>
    have hp : ∀ n ∈ parameters, Shaped P (.name .parameter) n := fun n hn =>
      h.part (p := (.name .parameter, n)) (by simp [Form.parts, Form.many, Node.form, hn])
    have hb : ∀ n ∈ body, Shaped P .statement n := fun n hn =>
      h.part (p := (.statement, n)) (by simp [Form.parts, Form.many, Node.form, hn])
    have hall : parameters.all isNamed = true :=
      List.all_eq_true.2 fun n hn => isNamed_of_shaped (hp n hn)
    have hname : (kind = .expression && name.any (!isNamed ·)) = false := by
      cases name with
      | none => simp
      | some m =>
        have := isNamed_of_shaped (h.part (p := (_, m)) (by
          simp only [Form.parts, Form.maybe, Node.form]
          exact List.mem_append_left _ (List.mem_append_left _ (.head _))))
        simp [this]
    simp only [openingFault?, Node.form, listFault?_of_shaped hp, hall, if_true, hname,
      bodyFault?_of_shaped hb, Option.or_none, Bool.false_eq_true, if_false]
  | handler caught body =>
    have hn : isNamed caught = true :=
      isNamed_of_shaped (h.part (p := (.name .caught, caught)) (by simp [Form.parts, Node.form]))
    simp [openingFault?, Node.form, hn]
  | _ => rfl

theorem fault?_of_shaped {body : List Node} (h : ∀ n ∈ body, Shaped P c n) :
    fault? body = none := by
  rw [fault?, bodyFault?_of_shaped h, Option.none_or, List.findSome?_eq_none_iff]
  intro m hm
  obtain ⟨n, hn, hm⟩ := List.mem_flatMap.1 hm
  obtain ⟨c', hm⟩ := (h n hn).of_mem_preorder hm
  exact openingFault?_of_shaped hm

end Scope

theorem exists_resolveBody {P : Form Node → Prop} {t : Node} (h : Shaped P .program t) :
    ∃ line body, t = .mk line (.program body) ∧ (∀ n ∈ body, Shaped P .statement n) ∧
      t.resolve = .ok (.mk line (.program (Scope.resolveBody body))) := by
  obtain ⟨line, form⟩ := t
  cases form with
  | program body =>
    have hb : ∀ n ∈ body, Shaped P .statement n := fun n hn =>
      h.part (p := (.statement, n)) (by simp [Form.parts, Form.many, Node.form, hn])
    refine ⟨line, body, rfl, hb, ?_⟩
    simp only [Node.resolve, Scope.body?, bind, Except.bind, Scope.fault?_of_shaped hb]
    rfl
  | _ => cases h.fits

theorem exists_resolve {P : Form Node → Prop} {t : Node} (h : Shaped P .program t) :
    ∃ r, t.resolve = .ok r ∧ ResolvedAs .program r := by
  obtain ⟨line, body, -, hb, hr⟩ := exists_resolveBody h
  refine ⟨_, hr, .mk rfl trivial fun p hp => ?_⟩
  obtain ⟨n, hn, rfl⟩ := List.mem_map.1 hp
  obtain ⟨i, hi, rfl⟩ := List.mem_mapIdx.1 hn
  exact Scope.shaped_resolveIn (hb _ (List.getElem_mem hi)) _ _

end Debundle
