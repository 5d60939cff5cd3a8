import Debundle.Proofs.Bundle.Functions

/-!
# Calls that are relinked

A call is relinked by the name of its callee, whatever the name is bound to: it is `require`, or it
is shown as `require` because it is that of the first parameter of the module function. So exactly
the calls of the module's own `require` are relinked, and nothing else is changed, if no other name
is spelled like that (`relinkedBy_program`).
-/
namespace Debundle

namespace Node

variable {own : Symbol → Prop} {link : String → Option String} {n : Node}

/-- The name that is called at a position, and the text that is its only argument. -/
def call? (n : Node) (q : List Nat) : Option (Symbol × String) :=
  match n.at? q with
  | some (mk _ (.call (mk _ (.symbol s)) [mk _ (.string specifier)])) => some (s, specifier)
  | _ => none

/-- At a position there is a call of a name, with one text as its only argument. -/
def CallsAt (n : Node) (q : List Nat) (s : Symbol) (specifier : String) : Prop :=
  n.call? q = some (s, specifier)

theorem callsAt_iff {q : List Nat} {s : Symbol} {specifier : String} :
    n.CallsAt q s specifier ↔ ∃ line callee argument, n.at? q =
      some (mk line (.call (mk callee (.symbol s)) [mk argument (.string specifier)])) := by
  constructor
  · intro h
    unfold CallsAt call? at h
    split at h
    · rename_i line callee s' argument specifier' hat
      cases h
      exact ⟨line, callee, argument, hat⟩
    · cases h
  · rintro ⟨line, callee, argument, h⟩
    rw [CallsAt, call?, h]

/-- One tree is another one in which the calls of some names, and nothing else, have other
arguments. -/
structure RelinkedBy (own : Symbol → Prop) (link : String → Option String) (n n' : Node) : Prop where
  linked : ∀ q s specifier new, n.CallsAt q s specifier → own s → link specifier = some new →
    n'.CallsAt q s new
  kept : ∀ p m, n.at? p = some m →
    (∀ q s specifier, p = q ++ [1] → n.CallsAt q s specifier → own s → link specifier = none) →
    ∃ m', n'.at? p = some m' ∧ m'.line = m.line ∧ m'.form.label = m.form.label

/-- The names whose calls are relinked. -/
def CallsRequire (s : Symbol) : Prop :=
  s.role = .reference ∧ (s.name = "require" ∨ s.shownAs = some "require")

theorem CallsAt.cons {line : Option Nat} {form : Form Node} {i : Nat} {child : Node} {q : List Nat}
    {s : Symbol} {specifier : String} (h : child.CallsAt q s specifier)
    (hchild : form.children[i]? = some child) : (mk line form).CallsAt (i :: q) s specifier := by
  obtain ⟨l, callee, argument, h⟩ := callsAt_iff.1 h
  refine callsAt_iff.2 ⟨l, callee, argument, ?_⟩
  rw [at?_cons, Node.form, hchild]
  exact h

theorem CallsAt.argument {q : List Nat} {s : Symbol} {specifier : String}
    (h : n.CallsAt q s specifier) : ∃ line, n.at? (q ++ [1]) = some (mk line (.string specifier)) := by
  obtain ⟨l, callee, argument, h⟩ := callsAt_iff.1 h
  refine ⟨argument, ?_⟩
  rw [at?_append, h]
  rfl

theorem CallsAt.callee {q : List Nat} {s : Symbol} {specifier : String}
    (h : n.CallsAt q s specifier) : ∃ line, n.at? (q ++ [0]) = some (mk line (.symbol s)) := by
  obtain ⟨l, callee, argument, h⟩ := callsAt_iff.1 h
  refine ⟨callee, ?_⟩
  rw [at?_append, h]
  rfl

theorem line_relink (link : String → Option String) (n : Node) : (relink link n).line = n.line := by
  obtain ⟨line, form⟩ := n
  rw [relink_mk]
  rfl

theorem label_relink (link : String → Option String) (n : Node) :
    (relink link n).form.label = n.form.label := by
  obtain ⟨line, form⟩ := n
  cases hrequired : (required? form).bind link with
  | none => rw [relink_of_none line hrequired, Node.form, Node.form, Form.label_map]
  | some new =>
    obtain ⟨specifier, hspecifier, hlink⟩ := Option.bind_eq_some_iff.1 hrequired
    obtain ⟨callee, argument, rfl, hr⟩ := required?_eq_some_iff.1 hspecifier
    rw [relink_call line argument hr hlink]
    rfl

/-- The node at a position is relinked by itself, or it is the argument of a call that is. -/
theorem at?_relink (link : String → Option String) {p : List Nat} {m : Node}
    (h : n.at? p = some m) :
    (relink link n).at? p = some (relink link m) ∨
      ∃ q s specifier new line, p = q ++ [1] ∧ n.CallsAt q s specifier ∧ CallsRequire s ∧
        link specifier = some new ∧ m = mk line (.string specifier) ∧
        (relink link n).at? p = some (mk line (.string new)) := by
  induction p generalizing n with
  | nil =>
    cases h
    exact .inl rfl
  | cons i p ih =>
    obtain ⟨line, form⟩ := n
    obtain ⟨child, hchild, hm⟩ := Option.bind_eq_some_iff.1 h
    cases hrequired : (required? form).bind link with
    | none =>
      have hrelinked : (relink link (mk line form)).at? (i :: p) = (relink link child).at? p := by
        have hget : (form.map (relink link)).children[i]? = some (relink link child) := by
          rw [Form.children_map, List.getElem?_map]
          exact congrArg (Option.map _) hchild
        rw [relink_of_none line hrequired, at?_cons, Node.form, hget]
        rfl
      rw [hrelinked]
      obtain heq | ⟨q, s, specifier, new, l, rfl, hcalls, hs, hlink, hm', heq⟩ := ih hm
      · exact .inl heq
      · exact .inr ⟨i :: q, s, specifier, new, l, rfl, hcalls.cons hchild, hs, hlink, hm', heq⟩
    | some new =>
      obtain ⟨specifier, hspecifier, hlink⟩ := Option.bind_eq_some_iff.1 hrequired
      obtain ⟨callee, argument, rfl, hr⟩ := required?_eq_some_iff.1 hspecifier
      obtain ⟨calleeLine, s, rfl, hs⟩ := isRequire_eq_true_iff.1 hr
      rw [relink_call line argument hr hlink]
      obtain _ | _ | i := i
      · cases hchild
        obtain _ | ⟨j, p⟩ := p
        · cases hm
          exact .inl (by rw [relink_symbol]; rfl)
        · cases hm
      · cases hchild
        obtain _ | ⟨j, p⟩ := p
        · cases hm
          exact .inr ⟨[], s, specifier, new, argument, rfl, rfl, hs, hlink, rfl, rfl⟩
        · cases hm
      · cases hchild

/-- The call at a position is relinked if its callee is one of the names for that, and else it is
left as it is. -/
theorem callsAt_relink {q : List Nat} {s : Symbol} {specifier : String}
    (h : n.CallsAt q s specifier) :
    (∀ new, CallsRequire s → link specifier = some new → (relink link n).CallsAt q s new) ∧
      (¬ CallsRequire s → (relink link n).CallsAt q s specifier) := by
  obtain ⟨line, callee, argument, h⟩ := callsAt_iff.1 h
  obtain heq | ⟨_, _, _, _, _, _, _, _, _, hcall, -⟩ := at?_relink link h
  · constructor
    · intro new hs hlink
      have hr : (mk callee (.symbol s)).isRequire = true := isRequire_eq_true_iff.2 ⟨callee, s, rfl, hs⟩
      exact callsAt_iff.2 ⟨line, callee, argument, by rw [heq, relink_call line argument hr hlink]⟩
    · intro hs
      have hnone : required? (.call (mk callee (.symbol s)) [mk argument (.string specifier)]) =
          none := by
        rw [Option.eq_none_iff_forall_ne_some]
        intro other hother
        obtain ⟨_, _, hform, hr⟩ := required?_eq_some_iff.1 hother
        cases hform
        obtain ⟨_, _, hsymbol, hs'⟩ := isRequire_eq_true_iff.1 hr
        cases hsymbol
        exact hs hs'
      refine callsAt_iff.2 ⟨line, callee, argument, ?_⟩
      rw [heq, relink_of_none line (by rw [hnone]; rfl)]
      simp only [Form.map, List.map_cons, List.map_nil, relink_symbol]
      rw [relink_of_none argument rfl]
      rfl
  · cases hcall

/-- A tree is relinked at the calls of some names, and nowhere else, exactly if these are the names
whose calls are relinked, as far as that changes a call. -/
theorem relinkedBy_relink_iff :
    RelinkedBy own link n (relink link n) ↔
      ∀ q s specifier new, n.CallsAt q s specifier → link specifier = some new → new ≠ specifier →
        (own s ↔ CallsRequire s) := by
  constructor
  · intro h q s specifier new hcalls hlink hne
    obtain ⟨line, hargument⟩ := hcalls.argument
    have hnew : ∀ text, (relink link n).CallsAt q s text → text = specifier →
        ¬ (relink link n).CallsAt q s new := by
      rintro text htext rfl hnew
      obtain ⟨_, h₁⟩ := htext.argument
      obtain ⟨_, h₂⟩ := hnew.argument
      cases h₁.symm.trans h₂
      exact hne rfl
    constructor
    · intro hown
      by_contra hs
      exact hnew _ ((callsAt_relink hcalls).2 hs) rfl (h.linked q s specifier new hcalls hown hlink)
    · intro hs
      by_contra hown
      have hcall := (callsAt_relink hcalls).1 new hs hlink
      obtain ⟨m', hm', -, hlabel⟩ := h.kept _ _ hargument (by
        intro q' s' specifier' hq hcalls' hown'
        obtain rfl := List.append_inj_left' hq rfl
        cases hcalls.symm.trans hcalls'
        exact absurd hown' hown)
      obtain ⟨_, hm''⟩ := hcall.argument
      cases hm'.symm.trans hm''
      cases hlabel
      exact hne rfl
  · intro h
    refine ⟨fun q s specifier new hcalls hown hlink => ?_, fun p m hm hnone => ?_⟩
    · by_cases hs : CallsRequire s
      · exact (callsAt_relink hcalls).1 new hs hlink
      · have heq : new = specifier := by
          by_contra hne
          exact hs ((h q s specifier new hcalls hlink hne).1 hown)
        exact heq ▸ (callsAt_relink hcalls).2 hs
    · obtain heq | ⟨q, s, specifier, new, line, rfl, hcalls, hs, hlink, rfl, heq⟩ :=
        at?_relink link hm
      · exact ⟨_, heq, line_relink link m, label_relink link m⟩
      · have heq' : new = specifier := by
          by_contra hne
          have hown := (h q s specifier new hcalls hlink hne).2 hs
          rw [hnone q s specifier rfl hcalls hown] at hlink
          cases hlink
        exact ⟨_, heq, rfl, by rw [heq']⟩

end Node

namespace ModuleRecord

/-- A name that is bound to the definition of the first parameter of the module function. -/
def IsOwnRequire (function : Node) (s : Symbol) : Prop :=
  s.role = .reference ∧ ∃ w d, parameter? function 0 = some w ∧ Scope.definition? w = some d ∧
    Scope.definition? s = some d

/-- No later parameter has the name of the first one and is shown under another. -/
def FirstIsNamedOnce (function : Node) : Prop :=
  ∀ w, parameter? function 0 = some w → ∀ i > 0, ∀ v shown, parameter? function i = some v →
    wrapperNames[i]? = some shown → v.name = w.name → v.name = shown

theorem eq_zero_of_require {i : Nat} (h : wrapperNames[i]? = some "require") : i = 0 := by
  obtain ⟨hlt, h⟩ := List.getElem?_eq_some_iff.1 h
  have hall : ∀ j (hj : j < wrapperNames.length), wrapperNames[j] = "require" → j = 0 := by decide
  exact hall i hlt h

theorem shownAs_eq_require_iff (F : ScopedFunction) {home : Home} {name : String} :
    shownAs F.node home name = some "require" ↔
      name ≠ "require" ∧ FirstIsNamedOnce F.node ∧
        ∃ w, parameter? F.node 0 = some w ∧ w.home = some home ∧ w.name = name := by
  rw [shownAs_eq_some_iff]
  constructor
  · rintro ⟨i, w, hw, hshown, hhome, rfl, hne, hlater⟩
    obtain rfl := eq_zero_of_require hshown
    refine ⟨hne, fun w' hw' i hi v c hv hc hname => ?_, w, hw, hhome, rfl⟩
    cases hw.symm.trans hw'
    rw [hname]
    exact hlater i hi v c hv hc ((F.home_of_parameter? hv).trans
      ((F.home_of_parameter? hw).symm.trans hhome)) hname
  · rintro ⟨hne, honce, w, hw, hhome, rfl⟩
    refine ⟨0, w, hw, rfl, hhome, rfl, hne, fun j hj v c hv hc _ hname => ?_⟩
    exact hname.symm.trans (honce w hw j hj v c hv hc hname)

theorem callsRequire_iff (F : ScopedFunction) {s : Symbol}
    (hs : s.shownAs = s.home.bind (shownAs F.node · s.name)) :
    Node.CallsRequire s ↔ s.role = .reference ∧
      (s.name = "require" ∨ IsOwnRequire F.node s ∧ FirstIsNamedOnce F.node) := by
  refine and_congr_right fun hrole => ?_
  by_cases hname : s.name = "require"
  · simp [hname]
  · rw [hs, Option.bind_eq_some_iff]
    simp only [hname, false_or, shownAs_eq_require_iff, IsOwnRequire, hrole, true_and,
      Scope.definition?]
    constructor
    · rintro ⟨home, hhome, -, honce, w, hw, hwhome, hwname⟩
      exact ⟨⟨w, ⟨home, s.name⟩, hw, by simp [hwhome, hwname], by simp [hhome]⟩, honce⟩
    · rintro ⟨⟨w, ⟨home, name⟩, hw, hwd, hsd⟩, honce⟩
      obtain ⟨_, hwhome, heq⟩ := Option.map_eq_some_iff.1 hwd
      cases heq
      obtain ⟨_, hhome, heq⟩ := Option.map_eq_some_iff.1 hsd
      obtain ⟨rfl, hsname⟩ := Scope.Definition.mk.inj heq
      exact ⟨_, hhome, hname, honce, w, hw, hwhome, hsname.symm⟩

variable {cwd text : String} {table : NameTable} {r : ModuleRecord} {body : List Node}

theorem relink_program (hprogram : r.program cwd = .ok body) :
    Node.mk none (.program body) =
      Node.relink (r.link cwd) (.mk none (.program (unwrap r.function))) := by
  rw [Node.relink_of_none none rfl, program_ok hprogram]
  rfl

/-- In a module of a scoped bundle, the calls are relinked whose callee is named `require` or is the
first parameter, if no other parameter takes its place. These are the calls of the first parameter
exactly if no other name is spelled `require` where it is called with a specifier that leads to
another module, and the first parameter has its name for itself. -/
theorem relinkedBy_program (hr : r.ReadFrom text table) (hprogram : r.program cwd = .ok body) :
    Node.RelinkedBy (fun s => s.role = .reference ∧ (s.name = "require" ∨
        IsOwnRequire r.function s ∧ FirstIsNamedOnce r.function)) (r.link cwd)
      (.mk none (.program (unwrap r.function))) (.mk none (.program body)) ∧
    (Node.RelinkedBy (IsOwnRequire r.function) (r.link cwd)
        (.mk none (.program (unwrap r.function))) (.mk none (.program body)) ↔
      ∀ q s specifier new,
        (Node.mk none (.program (unwrap r.function))).CallsAt q s specifier →
        s.role = .reference → r.link cwd specifier = some new → new ≠ specifier →
        (IsOwnRequire r.function s ↔
          s.name = "require" ∨ IsOwnRequire r.function s ∧ FirstIsNamedOnce r.function)) := by
  obtain ⟨t, resolved, hread, hresolve, hmem, _, _, _, hform⟩ := hr.exists_program
  obtain ⟨F, -, hF⟩ := exists_scopedFunction hread hresolve hmem hform
  have hcalls : ∀ q s specifier,
      (Node.mk none (.program (unwrap r.function))).CallsAt q s specifier →
      (Node.CallsRequire s ↔ s.role = .reference ∧
        (s.name = "require" ∨ IsOwnRequire r.function s ∧ FirstIsNamedOnce r.function)) := by
    intro q s specifier hcalls
    obtain ⟨line, hcallee⟩ := hcalls.callee
    rw [hF] at hcallee ⊢
    obtain ⟨_, _, _, _, _, _, _, _, _, _, hshown⟩ := F.exists_of_symbol hcallee
    exact callsRequire_iff F hshown
  rw [relink_program hprogram, Node.relinkedBy_relink_iff, Node.relinkedBy_relink_iff]
  refine ⟨fun q s specifier new h _ _ => (hcalls q s specifier h).symm, ?_⟩
  refine forall₅_congr fun q s specifier new h => ?_
  rw [hcalls q s specifier h]
  have hrole : IsOwnRequire r.function s → s.role = .reference := And.left
  by_cases hs : s.role = .reference
  · simp only [hs, true_and, forall_true_left]
  · simp only [hs, false_and, iff_false, false_imp_iff, iff_true]
    exact fun _ _ h => hs (hrole h)

/-- A module that calls its `require` by another name, and a function in it that calls a parameter
of its own named `require`. -/
def shadowed : String :=
  "e(\x7b1:[function(t)\x7bt('./a');function f(require)\x7brequire('./a')\x7d\x7d,\x7b'./a':2\x7d]," ++
    "2:[function()\x7b\x7d,\x7b\x7d]\x7d,0,[1])"

def shadowedNames : NameTable :=
  { names := [("1", "main"), ("2", "a")], entries := ["main"] }

theorem calls_shadowed :
    ((parse unnamedFile shadowed).result.toOption.bind fun t =>
      t.resolve.toOption.bind fun resolved =>
      (Bundle.kernel? none resolved).toOption.bind fun kernel => kernel.bind fun call =>
      (Bundle.ofKernel none call).toOption.bind fun b =>
      (b.sources none).toOption.bind fun sources => sources.head?.bind fun p =>
      (p.2.record none shadowedNames p.1).outcome.toOption.bind fun r =>
      (r.program "/").toOption.bind fun _ =>
      some ((Node.mk none (.program (unwrap r.function))).call? [0, 0],
        (Node.mk none (.program (unwrap r.function))).call? [1, 2, 0],
        parameter? r.function 0, (parameters r.function).length, r.link "/" "./a")) =
      some (
        some (⟨.reference, "t", some (.scope [0, 0, 1, 0, 0, 0]), some "require"⟩, "./a"),
        some (⟨.reference, "require", some (.scope [0, 0, 1, 0, 0, 0, 3]), none⟩, "./a"),
        some ⟨.parameter, "t", some (.scope [0, 0, 1, 0, 0, 0]), none⟩, 1, some "./a.js") := by
  decide +kernel

theorem exists_shadowed :
    ∃ (r : ModuleRecord) (body : List Node), r.ReadFrom shadowed shadowedNames ∧
      r.program "/" = .ok body ∧
      (Node.mk none (.program (unwrap r.function))).CallsAt [0, 0]
        ⟨.reference, "t", some (.scope [0, 0, 1, 0, 0, 0]), some "require"⟩ "./a" ∧
      (Node.mk none (.program (unwrap r.function))).CallsAt [1, 2, 0]
        ⟨.reference, "require", some (.scope [0, 0, 1, 0, 0, 0, 3]), none⟩ "./a" ∧
      parameter? r.function 0 = some ⟨.parameter, "t", some (.scope [0, 0, 1, 0, 0, 0]), none⟩ ∧
      (parameters r.function).length = 1 ∧ r.link "/" "./a" = some "./a.js" := by
  have hcalls := calls_shadowed
  simp only [Option.bind_eq_some_iff, Option.some.injEq, Prod.mk.injEq] at hcalls
  obtain ⟨t, ht, resolved, hr, _, hk, call, rfl, b, hb, sources, hs, p, hp, r, hrecord, body, hbody,
    hfacts⟩ := hcalls
  exact ⟨r, body, ⟨none, unnamedFile, t, resolved, call, b, sources, p, eq_ok_of_toOption ht,
    eq_ok_of_toOption hr, eq_ok_of_toOption hk, eq_ok_of_toOption hb, eq_ok_of_toOption hs,
    List.mem_of_mem_head? hp, eq_ok_of_toOption hrecord⟩, eq_ok_of_toOption hbody, hfacts⟩

theorem relinkedBy_program_shadowed :
    ∃ (r : ModuleRecord) (body : List Node), r.ReadFrom shadowed shadowedNames ∧
      r.program "/" = .ok body ∧
      (Node.mk none (.program body)).CallsAt [0, 0]
        ⟨.reference, "t", some (.scope [0, 0, 1, 0, 0, 0]), some "require"⟩ "./a.js" := by
  obtain ⟨r, body, hr, hbody, hfirst, -, hparameter, hlength, hlink⟩ := exists_shadowed
  refine ⟨r, body, hr, hbody, (relinkedBy_program hr hbody).1.linked _ _ _ _ hfirst ?_ hlink⟩
  refine ⟨rfl, .inr ⟨⟨rfl, _, _, hparameter, rfl, rfl⟩, fun w _ i hi v shown hv _ _ => ?_⟩⟩
  rw [parameter?, List.getElem?_eq_none (by omega)] at hv
  cases hv

/-- The call of the inner function's own parameter is relinked as well. -/
theorem not_relinkedBy_shadowed :
    ∃ (r : ModuleRecord) (body : List Node), r.ReadFrom shadowed shadowedNames ∧
      r.program "/" = .ok body ∧
      ¬ Node.RelinkedBy (IsOwnRequire r.function) (r.link "/")
        (.mk none (.program (unwrap r.function))) (.mk none (.program body)) := by
  obtain ⟨r, body, hr, hbody, -, hinner, hparameter, -, hlink⟩ := exists_shadowed
  refine ⟨r, body, hr, hbody, fun h => ?_⟩
  rw [relink_program hbody] at h
  have howns := Node.relinkedBy_relink_iff.1 h _ _ _ _ hinner hlink (by decide)
  obtain ⟨-, w, d, hw, hwd, hd⟩ := howns.2 ⟨rfl, .inl rfl⟩
  cases hparameter.symm.trans hw
  cases hwd.trans hd.symm

end ModuleRecord

end Debundle
