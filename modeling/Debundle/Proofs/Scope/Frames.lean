import Debundle.Proofs.Scope.Homes
import Debundle.Proofs.Tree.Positions

/-!
# Scopes around a position

Resolving a tree resolves the node at a position in the scopes that are opened on the way to it
(`at?_resolveIn`). These scopes lie deeper in the program than those around the tree, so the homes
inside of a tree are told from those outside by the lengths of their addresses.
-/
namespace Debundle

namespace Form

variable {α : Type}

theorem map_snd_children_enumerate (form : Form α) :
    form.enumerate.children.map Prod.snd = form.children := by
  rw [← children_map, map_snd_enumerate]

theorem getElem?_enumerate {form : Form α} {i : Nat} {child : α}
    (h : form.children[i]? = some child) :
    ∃ slot, form.enumerate.children[i]? = some (slot, child) := by
  rw [← map_snd_children_enumerate, List.getElem?_map, Option.map_eq_some_iff] at h
  obtain ⟨⟨slot, _⟩, hget, rfl⟩ := h
  exact ⟨slot, hget⟩

theorem getElem?_enumerate_eq_none {form : Form α} {i : Nat} (h : form.children[i]? = none) :
    form.enumerate.children[i]? = none := by
  rwa [← map_snd_children_enumerate, List.getElem?_map, Option.map_eq_none_iff] at h

theorem map_fst_slotted (start : Nat) (items : List α) :
    (enumerate.slotted start items).map Prod.fst = List.range' start items.length :=
  List.map_fst_zip (by simp)

theorem nodup_slots (form : Form α) : (form.enumerate.children.map Prod.fst).Nodup := by
  cases form with
  | forLoop init condition step body =>
    cases init <;> cases condition <;> cases step <;> simp [enumerate, children]
  | tryBlock body caught last =>
    cases caught <;> cases last <;> simp [enumerate, children, map_fst_slotted, List.nodup_append,
      List.nodup_range', List.mem_range'_1] <;> omega
  | function kind name parameters body =>
    cases name <;> simp [enumerate, children, map_fst_slotted, List.nodup_append,
      List.nodup_range', List.mem_range'_1] <;> omega
  | branch test body =>
    cases test <;> simp [enumerate, children, map_fst_slotted, List.nodup_range', List.mem_range'_1]
  | exit kind value => cases value <;> simp [enumerate, children]
  | ifElse condition body alternative => cases alternative <;> simp [enumerate, children]
  | definition name value => cases value <;> simp [enumerate, children]
  | _ => simp [enumerate, children, map_fst_slotted, List.nodup_range', List.mem_range'_1]

end Form

namespace Scope

/-- The scopes around the node at a position, and its address, where those of the tree are
given. -/
def contextAt : Node → List Frame → List Nat → List Nat → List Frame × List Nat
  | _, frames, address, [] => (frames, address)
  | n, frames, address, i :: rest =>
    match n.form.enumerate.children[i]? with
    | some (slot, child) =>
      contextAt child (framesAt n.form frames address slot) (address ++ [slot]) rest
    | none => (frames, address)

theorem label_resolveIn (n : Node) (frames : List Frame) (address : List Nat) :
    (∃ line s, n = .mk line (.symbol s) ∧ resolveIn n frames address =
        .mk line (.symbol { s with home := some (symbolHome frames s) })) ∨
      (∀ s, n.form ≠ .symbol s) ∧ (resolveIn n frames address).line = n.line ∧
        (resolveIn n frames address).form.label = n.form.label := by
  obtain ⟨line, form⟩ := n
  by_cases hs : ∃ s, form = .symbol s
  · obtain ⟨s, rfl⟩ := hs
    exact .inl ⟨line, s, rfl, resolveIn_symbol ..⟩
  · have hs : ∀ s, form ≠ .symbol s := fun s h => hs ⟨s, h⟩
    rw [resolveIn_mk line hs]
    refine .inr ⟨hs, rfl, ?_⟩
    conv_rhs => rw [Node.form, ← Form.map_snd_enumerate form, Form.label_map]
    exact Form.label_map ..

theorem eq_symbol_of_resolveIn {n : Node} {frames : List Frame} {address : List Nat}
    {line : Option Nat} {s : Symbol} (h : resolveIn n frames address = .mk line (.symbol s)) :
    ∃ s₀, n = .mk line (.symbol s₀) ∧ s = { s₀ with home := some (symbolHome frames s₀) } := by
  obtain ⟨_, s₀, rfl, heq⟩ | ⟨hs, -, hlabel⟩ := label_resolveIn n frames address
  · cases heq.symm.trans h
    exact ⟨s₀, rfl, rfl⟩
  · obtain ⟨_, form⟩ := n
    rw [h] at hlabel
    cases form with
    | symbol s₀ => exact absurd rfl (hs s₀)
    | _ => cases hlabel

theorem children_resolveIn {line : Option Nat} {form : Form Node} (frames : List Frame)
    (address : List Nat) :
    (resolveIn (.mk line form) frames address).form.children =
      form.enumerate.children.map fun child =>
        resolveIn child.2 (framesAt form frames address child.1) (address ++ [child.1]) := by
  by_cases hs : ∃ s, form = .symbol s
  · obtain ⟨s, rfl⟩ := hs
    rw [resolveIn_symbol]
    rfl
  · rw [resolveIn_mk line fun s h => hs ⟨s, h⟩, Node.form, Form.children_map]

theorem at?_resolveIn (n : Node) (frames : List Frame) (address p : List Nat) :
    (resolveIn n frames address).at? p =
      (n.at? p).map fun m =>
        resolveIn m (contextAt n frames address p).1 (contextAt n frames address p).2 := by
  induction p generalizing n frames address with
  | nil => rfl
  | cons i p ih =>
    obtain ⟨line, form⟩ := n
    rw [Node.at?_cons, children_resolveIn, List.getElem?_map, Node.at?_cons, Node.form]
    cases hchild : form.children[i]? with
    | none =>
      rw [Form.getElem?_enumerate_eq_none hchild]
      rfl
    | some child =>
      obtain ⟨slot, hslot⟩ := Form.getElem?_enumerate hchild
      have hcontext : contextAt (.mk line form) frames address (i :: p) =
          contextAt child (framesAt form frames address slot) (address ++ [slot]) p := by
        rw [contextAt, Node.form, hslot]
      rw [hslot, hcontext]
      exact ih child _ _

/-! ## Whole programs -/

/-- The scope of a whole program. -/
def programFrame (body : List Node) : Frame :=
  ⟨[], programNames body, true⟩

theorem resolveIn_program (line : Option Nat) (body : List Node) :
    resolveIn (.mk line (.program body)) [programFrame body] [] =
      .mk line (.program (resolveBody body)) := by
  have hform : ∀ s, Form.program body ≠ .symbol s := nofun
  rw [resolveIn_mk line hform, Form.enumerate, Form.map, Form.map_slotted]
  simp only [Nat.zero_add, List.nil_append]
  rfl

theorem contextAt_program (line : Option Nat) (body : List Node) (frames : List Frame) (i : Nat)
    (p : List Nat) {n : Node} (h : body[i]? = some n) :
    contextAt (.mk line (.program body)) frames [] (i :: p) = contextAt n frames [i] p := by
  have hslot : (Form.enumerate (.program body)).children[i]? = some (i, n) := by
    have hslotted : Form.enumerate.slotted 0 body = body.mapIdx fun i m => (i, m) := by
      simpa using Form.map_slotted 0 body id
    rw [Form.enumerate, Form.children, hslotted, List.getElem?_mapIdx, h]
    rfl
  rw [contextAt, Node.form, hslot]
  rfl

theorem homeOf_of_mem {frame : Frame} {frames : List Frame} {name : String}
    (h : name ∈ frame.names) :
    homeOf (frame :: frames) name = .scope frame.address := by
  rw [homeOf, List.find?_cons_of_pos (by simpa using h)]

theorem symbolHome_of_declared {s : Symbol} (hreference : s.role ≠ .reference)
    (hcaught : s.role ≠ .caught) (frames : List Frame) :
    symbolHome frames s = functionHome frames := by
  unfold symbolHome
  split
  · contradiction
  · contradiction
  all_goals rfl

theorem homeOf_eq_free_iff {frames : List Frame} {name : String} :
    homeOf frames name = .free ↔ name ∉ frames.flatMap Frame.names := by
  rw [homeOf, List.mem_flatMap]
  constructor
  · intro h
    split at h
    · cases h
    · rename_i hnone
      rintro ⟨frame, hframe, hname⟩
      simpa [hname] using List.find?_eq_none.1 hnone frame hframe
  · intro h
    have hnone : frames.find? (name ∈ ·.names) = none :=
      List.find?_eq_none.2 fun frame hframe hname => h ⟨frame, hframe, by simpa using hname⟩
    rw [hnone]

/-! ## Addresses -/

/-- The scopes around a node lie above it. -/
def Above (frames : List Frame) (address : List Nat) : Prop :=
  ∀ frame ∈ frames, frame.address.length < address.length

theorem above_framesAt {form : Form Node} {frames : List Frame} {address : List Nat} (slot : Nat)
    (h : Above frames address) : Above (framesAt form frames address slot) (address ++ [slot]) := by
  have hframes : ∀ frame ∈ frames, frame.address.length < (address ++ [slot]).length := by
    intro frame hframe
    have := h frame hframe
    simp
    omega
  unfold framesAt
  split
  · split_ifs
    · exact hframes
    · exact List.forall_mem_cons.2 ⟨by simp, hframes⟩
  · exact List.forall_mem_cons.2 ⟨by simp, hframes⟩
  · exact hframes

theorem exists_of_mem_preorder_resolveIn {n m : Node} {frames : List Frame} {address : List Nat}
    (ha : Above frames address) (h : m ∈ (resolveIn n frames address).preorder) :
    ∃ m₀ ∈ n.preorder, ∃ frames' address', Above frames' address' ∧
      m = resolveIn m₀ frames' address' := by
  induction n using Node.induct generalizing frames address with
  | step line form ih =>
    rw [Node.preorder_eq, List.mem_cons, children_resolveIn, List.mem_flatten] at h
    obtain rfl | ⟨below, hbelow, hm⟩ := h
    · exact ⟨_, Node.mem_preorder_self _, frames, address, ha, rfl⟩
    · rw [List.map_map, List.mem_map] at hbelow
      obtain ⟨⟨slot, child⟩, hchild, rfl⟩ := hbelow
      have hmem := Form.snd_mem_of_enumerate hchild
      obtain ⟨m₀, hm₀, hrest⟩ := ih child hmem (above_framesAt slot ha) hm
      exact ⟨m₀, Node.mem_preorder_of_child hmem hm₀, hrest⟩

theorem exists_of_mem_preorder_resolveBody {body : List Node} {n m : Node}
    (hn : n ∈ resolveBody body) (h : m ∈ n.preorder) :
    ∃ n₀ ∈ body, ∃ m₀ ∈ n₀.preorder, ∃ frames address, Above frames address ∧
      m = resolveIn m₀ frames address := by
  obtain ⟨i, hi, rfl⟩ := List.mem_mapIdx.1 hn
  obtain ⟨m₀, hm₀, hrest⟩ := exists_of_mem_preorder_resolveIn (by simp [Above]) h
  exact ⟨body[i], List.getElem_mem hi, m₀, hm₀, hrest⟩

end Scope

theorem exists_of_mem_preorder_resolve {P : Form Node → Prop} {t resolved m : Node}
    (ht : Shaped P .program t) (hr : t.resolve = .ok resolved) (hm : m ∈ resolved.preorder)
    (hroot : m.form.isOf .program = false) :
    ∃ m₀ c, Shaped P c m₀ ∧ ∃ frames address, Scope.Above frames address ∧
      m = Scope.resolveIn m₀ frames address := by
  obtain ⟨line, body, -, hb, hbody⟩ := exists_resolveBody ht
  rw [Except.ok.inj (hr.symm.trans hbody), Node.preorder_mk, List.mem_cons, List.mem_flatten] at hm
  obtain rfl | ⟨below, hbelow, hm⟩ := hm
  · cases hroot
  · obtain ⟨n, hn, rfl⟩ := List.mem_map.1 hbelow
    obtain ⟨n₀, hn₀, m₀, hm₀, hrest⟩ := Scope.exists_of_mem_preorder_resolveBody hn hm
    obtain ⟨c, hc⟩ := (hb n₀ hn₀).of_mem_preorder hm₀
    exact ⟨m₀, c, hc, hrest⟩

end Debundle
