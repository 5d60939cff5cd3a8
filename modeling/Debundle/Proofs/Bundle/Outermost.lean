import Debundle.Proofs.Tree.Positions
import Debundle.Bundle.Layout

/-!
# The outermost calls of a program

The kernel of a bundle is searched for by a walk that does not go below functions and calls. It finds
the calls that are below no function and below no other call, in the order of their positions
(`Node.exists_outermostCalls_eq`). What is below functions and calls has no part in it
(`Node.SameOutside.isOutermostCall_iff`).
-/
namespace Debundle

namespace Node

variable {a b n : Node} {p : List Nat} {i : Nat}

/-- Functions and calls. -/
def isClosed (n : Node) : Bool :=
  n.form.isCall || n.form.isFunction

/-- A position below no function and no call: none of the nodes above it is one. -/
def IsOpen (n : Node) (p : List Nat) : Prop :=
  ∀ above, above <+: p → above ≠ p → ∀ m, n.at? above = some m → m.isClosed = false

/-- The position of a call that is below no function and below no other call. -/
def IsOutermostCall (n : Node) (p : List Nat) : Prop :=
  n.IsOpen p ∧ ∃ call, n.at? p = some call ∧ call.form.isCall = true

theorem isOpen_nil (n : Node) : n.IsOpen [] :=
  fun _ habove hne => absurd (List.prefix_nil.1 habove) hne

theorem isOpen_cons_iff : n.IsOpen (i :: p) ↔
    n.isClosed = false ∧ ∀ child, n.form.children[i]? = some child → child.IsOpen p := by
  constructor
  · intro h
    refine ⟨h [] List.nil_prefix (by simp) n rfl, fun child hchild above habove hne m hm => ?_⟩
    refine h (i :: above) (List.cons_prefix_cons.2 ⟨rfl, habove⟩) (by simpa using hne) m ?_
    rw [at?_cons, hchild]
    exact hm
  · rintro ⟨hn, hbelow⟩ (_ | ⟨j, above⟩) hprefix hne m hm
    · cases hm
      exact hn
    · obtain ⟨rfl, habove⟩ := List.cons_prefix_cons.1 hprefix
      obtain ⟨child, hchild, hm⟩ := Option.bind_eq_some_iff.1 hm
      exact hbelow child hchild above habove (by simpa using hne) m hm

/-- A position is open if the one above it is, unless a function or a call is there. -/
theorem isOpen_concat_iff : n.IsOpen (p ++ [i]) ↔
    n.IsOpen p ∧ ∀ m, n.at? p = some m → m.isClosed = false := by
  induction p generalizing n with
  | nil =>
    rw [List.nil_append, isOpen_cons_iff]
    simp [isOpen_nil]
  | cons j p ih =>
    rw [List.cons_append, isOpen_cons_iff, isOpen_cons_iff, at?_cons, and_assoc]
    refine and_congr_right fun _ => ?_
    cases n.form.children[j]? with
    | none => simp
    | some child => simpa using ih

/-! ## The search -/

/-- The outermost call at a position. -/
def outermostCall? : Node → List Nat → Option Node
  | n, [] => if n.form.isCall then some n else none
  | n, i :: p => if n.isClosed then none else n.form.children[i]?.bind (outermostCall? · p)

theorem outermostCall?_eq_some_iff {call : Node} :
    n.outermostCall? p = some call ↔
      n.IsOpen p ∧ n.at? p = some call ∧ call.form.isCall = true := by
  induction p generalizing n with
  | nil =>
    rw [outermostCall?, at?_nil, and_iff_right (isOpen_nil n)]
    constructor
    · intro h
      split_ifs at h with hcall
      cases h
      exact ⟨rfl, hcall⟩
    · rintro ⟨⟨⟩, hcall⟩
      exact if_pos hcall
  | cons i p ih =>
    rw [outermostCall?, isOpen_cons_iff, at?_cons]
    cases n.isClosed with
    | true => simp
    | false =>
      cases n.form.children[i]? with
      | none => simp
      | some child => simpa using ih

theorem outermostCalls_mk (line : Option Nat) (form : Form Node) :
    (mk line form).outermostCalls =
      ((mk line form).outermostCall? []).toList ++
        if (mk line form).isClosed then [] else (form.children.map outermostCalls).flatten := by
  have hbelow : (form.children.map outermostCalls).flatten =
      ((form.children.map (walk isClosed)).flatten).filter (·.form.isCall) := by
    rw [List.filter_flatten, List.map_map]
    rfl
  change (walk isClosed (mk line form)).filter (·.form.isCall) = _
  rw [hbelow, walk_mk, List.filter_cons, outermostCall?, Node.form]
  cases form.isCall <;> cases (mk line form).isClosed <;> simp

/-- The walk finds the outermost calls in the order of their positions. -/
theorem outermostCalls_eq_filterMap (n : Node) :
    n.outermostCalls = n.positions.filterMap n.outermostCall? := by
  induction n using Node.induct with
  | step line form ih =>
    rw [outermostCalls_mk, positions_mk, List.filterMap_cons, List.filterMap_flatten]
    have hbelow : (if (mk line form).isClosed then [] else (form.children.map outermostCalls).flatten) =
        (List.map (List.filterMap (mk line form).outermostCall?)
          (form.children.mapIdx fun i n => n.positions.map (i :: ·))).flatten := by
      cases hclosed : (mk line form).isClosed with
      | true => simp [outermostCall?, hclosed, Function.comp_def]
      | false =>
        refine congrArg List.flatten (List.ext_getElem? fun i => ?_)
        rw [List.getElem?_map, List.getElem?_map, List.getElem?_mapIdx]
        cases hget : form.children[i]? with
        | none => rfl
        | some child =>
          rw [Option.map_some, Option.map_some, Option.map_some, List.filterMap_map,
            ih child (List.mem_of_getElem? hget)]
          refine congrArg some (List.filterMap_congr fun p _ => ?_)
          rw [Function.comp_apply, outermostCall?, hclosed, Node.form, hget]
          rfl
    rw [hbelow]
    cases (mk line form).outermostCall? [] <;> rfl

theorem isSome_outermostCall?_iff : (n.outermostCall? p).isSome = true ↔ n.IsOutermostCall p := by
  simp only [Option.isSome_iff_exists, outermostCall?_eq_some_iff, exists_and_left, IsOutermostCall]

/-- The outermost calls, listed by their positions. -/
theorem exists_outermostCalls_eq (n : Node) : ∃ calls : List (List Nat),
    calls.Pairwise (· < ·) ∧ (∀ p, p ∈ calls ↔ n.IsOutermostCall p) ∧
      n.outermostCalls = calls.filterMap n.at? := by
  refine ⟨n.positions.filter fun p => (n.outermostCall? p).isSome, n.pairwise_positions.filter _,
    fun p => ?_, ?_⟩
  · rw [List.mem_filter, mem_positions_iff, isSome_outermostCall?_iff]
    refine and_iff_right_of_imp fun ⟨_, call, hcall, _⟩ => ?_
    rw [hcall]
    rfl
  · rw [outermostCalls_eq_filterMap, List.filterMap_filter]
    refine List.filterMap_congr fun p _ => ?_
    cases h : n.outermostCall? p with
    | none => rfl
    | some call => exact (outermostCall?_eq_some_iff.1 h).2.1.symm

/-! ## What is below functions and calls -/

/-- What the search sees of a node: its line, and whether it is a call or a function. -/
def outside (n : Node) : Option Nat × Bool × Bool :=
  (n.line, n.form.isCall, n.form.isFunction)

/-- Two trees that look the same wherever the first one is open. They may differ in all that is below
functions and calls, and elsewhere in everything that is no call, no function and no line. -/
def SameOutside (a b : Node) : Prop :=
  ∀ p, a.IsOpen p → (a.at? p).map outside = (b.at? p).map outside

theorem isClosed_eq_of_outside {k m : Node} (h : k.outside = m.outside) :
    k.isClosed = m.isClosed :=
  congrArg (fun o : Option Nat × Bool × Bool => o.2.1 || o.2.2) h

namespace SameOutside

theorem cases (h : a.SameOutside b) (hp : a.IsOpen p) :
    a.at? p = none ∧ b.at? p = none ∨
      ∃ k m, a.at? p = some k ∧ b.at? p = some m ∧ k.outside = m.outside := by
  have heq := h p hp
  cases ha : a.at? p <;> cases hb : b.at? p <;> rw [ha, hb] at heq
  · exact .inl ⟨rfl, rfl⟩
  · cases heq
  · cases heq
  · exact .inr ⟨_, _, rfl, rfl, Option.some.inj heq⟩

theorem isOpen_iff (h : a.SameOutside b) : a.IsOpen p ↔ b.IsOpen p := by
  induction p using List.reverseRecOn with
  | nil => exact iff_of_true (isOpen_nil a) (isOpen_nil b)
  | append_singleton p i ih =>
    rw [isOpen_concat_iff, isOpen_concat_iff, ← ih, and_congr_right_iff]
    intro hp
    obtain ⟨ha, hb⟩ | ⟨k, m, ha, hb, heq⟩ := h.cases hp
    · simp [ha, hb]
    · simp [ha, hb, isClosed_eq_of_outside heq]

/-- Trees that look the same outside have their outermost calls in the same places. -/
theorem isOutermostCall_iff (h : a.SameOutside b) :
    a.IsOutermostCall p ↔ b.IsOutermostCall p := by
  rw [IsOutermostCall, IsOutermostCall, ← h.isOpen_iff, and_congr_right_iff]
  intro hp
  obtain ⟨ha, hb⟩ | ⟨k, m, ha, hb, heq⟩ := h.cases hp
  · simp [ha, hb]
  · have hcall : k.form.isCall = m.form.isCall := congrArg (·.2.1) heq
    simp [ha, hb, hcall]

/-- An outermost call of the one tree stands beside one of the other, on the same line. -/
theorem exists_calls (h : a.SameOutside b) (hp : a.IsOutermostCall p) :
    ∃ k m, a.at? p = some k ∧ b.at? p = some m ∧ k.line = m.line := by
  obtain ⟨hopen, call, hcall, -⟩ := hp
  obtain ⟨ha, -⟩ | ⟨k, m, ha, hb, heq⟩ := h.cases hopen
  · rw [ha] at hcall
    cases hcall
  · exact ⟨k, m, ha, hb, congrArg (·.1) heq⟩

end SameOutside

end Node

namespace Bundle

/-- The search for the kernel, by the positions of the outermost calls of a program: if there is none,
nothing is found; if there is one, it is found; and if there are more, the second one is reported with
a hint at the first. This holds of every program that looks the same outside of functions and calls,
so that what is in functions, in the callee or in the arguments never matters. -/
theorem kernel?_eq_outermost (file : Option String) (program : Node) :
    ∃ calls : List (List Nat), calls.Pairwise (· < ·) ∧
      (∀ p, p ∈ calls ↔ program.IsOutermostCall p) ∧
      ∀ other, program.SameOutside other →
        match calls with
        | [] => kernel? file other = .ok none
        | [p] => ∃ call, other.at? p = some call ∧ kernel? file other = .ok (some call)
        | p :: q :: _ => ∃ first second problem, program.at? p = some first ∧
          program.at? q = some second ∧ kernel? file other = .error problem ∧
          problem.report.kind = .ambiguous ∧ problem.file = file ∧ problem.line = second.line ∧
          problem.cause.suggestion = some ("The first candidate starts at line " ++
            Cause.numberText (first.line.map Int.ofNat)) := by
  obtain ⟨calls, hsorted, hmem, -⟩ := program.exists_outermostCalls_eq
  refine ⟨calls, hsorted, hmem, fun other hother => ?_⟩
  have hfound : other.outermostCalls = calls.filterMap other.at? := by
    obtain ⟨calls', hsorted', hmem', hfound⟩ := other.exists_outermostCalls_eq
    have hsame : ∀ p, p ∈ calls' ↔ p ∈ calls := fun p =>
      (hmem' p).trans (hother.isOutermostCall_iff.symm.trans (hmem p).symm)
    rwa [hsorted'.eq_of_mem_iff hsorted hsame] at hfound
  have hcalls : ∀ p ∈ calls, ∃ k m, program.at? p = some k ∧ other.at? p = some m ∧ k.line = m.line :=
    fun p hp => hother.exists_calls ((hmem p).1 hp)
  match calls, hfound, hcalls with
  | [], hfound, _ => rw [kernel?, hfound]; rfl
  | [p], hfound, hcalls =>
    obtain ⟨-, call, -, hcall, -⟩ := hcalls p (.head _)
    refine ⟨call, hcall, ?_⟩
    rw [kernel?, hfound, List.filterMap_cons_some hcall]
    rfl
  | p :: q :: _, hfound, hcalls =>
    obtain ⟨first, first', hp, hp', hfirst⟩ := hcalls p (.head _)
    obtain ⟨second, second', hq, hq', hsecond⟩ := hcalls q (.tail _ (.head _))
    refine ⟨first, second, { cause := .severalCalls first.line, file, line := second.line }, hp, hq,
      ?_, rfl, rfl, rfl, rfl⟩
    rw [kernel?, hfound, List.filterMap_cons_some hp', List.filterMap_cons_some hq', hfirst, hsecond]

end Bundle

end Debundle
