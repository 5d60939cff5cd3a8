import Debundle.Proofs.Scope.Lexical

/-!
# Bindings

Resolving a program follows the rules of lexical scoping: every name has one home by the rules
(`Scope.exists_hasHome`), and resolving notes this home (`Scope.symbolHome_around`). The tables of a
resolved program say the same (`lexicallyScoped_of_parse`).
-/
namespace Debundle

namespace Scope

variable {P : Form Node → Prop} {t resolved : Node} {s : Symbol} {p q : List Nat}

/-! ## Homes by the rules -/

theorem role_of_name {role : Role} {n : Node} (h : Shaped P (.name role) n)
    (hs : n.symbol? [] = some s) : s.role = role := by
  obtain ⟨line, hs⟩ := Node.symbol?_eq_some_iff.1 hs
  exact (eq_of_name h hs).2

theorem role_of_hoisted {c : Category} {m : Node} (h : Shaped P c m)
    (hhoisted : m.form.isHoisted = true) (hs : m.symbol? [0] = some s) :
    s.role = .variable ∨ s.role = .functionName := by
  obtain ⟨line, form⟩ := m
  cases form with
  | definition first value =>
    exact .inl (role_of_name (h.part (p := (.name .variable, first)) (.head _)) hs)
  | function kind own parameters body =>
    cases kind with
    | declaration =>
      cases own with
      | none => cases hhoisted
      | some own =>
        exact .inr (role_of_name (h.part (p := (.name .functionName, own)) (.head _)) hs)
    | _ => cases hhoisted
  | _ => cases hhoisted

theorem functionHome_around (ht : t.form.isOf .program = true) {k m : Node} (hk : t.at? p = some k)
    (hopens : OpensAround t q p m) (hbody : m.form.isBody = true)
    (hinner : ∀ q' m', OpensAround t q' p m' → m'.form.isBody = true → q'.length ≤ q.length) :
    functionHome (around t p) = .scope (addressAt t q) := by
  rw [functionHome, find?_around ht hk hopens Frame.isFunction hbody hinner]
  rfl

theorem functionHome_of_hoisted (ht : Shaped P .program t) {n child m : Node} {i : Nat}
    {rest : List Nat} (hn : t.at? q = some n) (hbody : n.form.isBody = true)
    (hchild : n.form.children[i]? = some child) (hm : child.at? rest = some m)
    (hclear : child.ClearTo rest) (hhoisted : m.form.isHoisted = true) {k : Node}
    (hk : t.at? (q ++ i :: (rest ++ [0])) = some k) :
    functionHome (around t (q ++ i :: (rest ++ [0]))) = .scope (addressAt t q) := by
  have hbelow : ∀ r, t.at? (q ++ i :: r) = child.at? r := fun r => by
    rw [Node.at?_append, hn, Option.bind_some, Node.at?_cons, hchild]
    rfl
  have hopens : OpensAround t q (q ++ i :: (rest ++ [0])) n := by
    refine ⟨i, rest ++ [0], rfl, hn, ?_⟩
    by_cases hq : q = []
    · exact .inl hq
    · refine .inr ?_
      have hprogram := isOf_program_of_at? ht hn hq
      obtain ⟨d, -, hshaped⟩ := shaped_at? ht hn fun h => absurd h hq
      obtain ⟨line, form⟩ := n
      cases form with
      | function kind own parameters body =>
        cases own with
        | none => cases kind <;> rfl
        | some own =>
          cases kind with
          | declaration =>
            cases i with
            | succ i => rfl
            | zero =>
              -- nothing is declared in the name of a function
              cases hchild
              have hname := hshaped.part (p := (.name .functionName, child)) (.head _)
              obtain ⟨l, form⟩ := child
              cases form with
              | symbol u =>
                cases rest with
                | nil => cases hm; cases hhoisted
                | cons j rest => cases hm
              | _ => cases hname.fits
          | _ => rfl
      | program body => cases hprogram
      | _ => cases hbody
  refine functionHome_around ht.fits hk hopens hbody ?_
  rintro q' m' ⟨i', rest', hp, hm', hopens'⟩ hbody'
  by_contra hlonger
  obtain ⟨r, rfl, hrest⟩ | ⟨r, rfl, -⟩ := List.append_eq_append_iff.1 hp
  · obtain _ | ⟨i₀, r⟩ := r
    · simp at hlonger
    obtain ⟨rfl, hbehind⟩ := List.cons.inj hrest
    obtain hnil | hopens' := hopens'
    · simp at hnil
    have hprogram := isOf_program_of_at? ht hm' (by simp)
    rw [hbelow] at hm'
    have hfunction : m'.form.isFunction = true := by
      obtain ⟨line, form⟩ := m'
      cases form with
      | function => rfl
      | program => cases hprogram
      | _ => cases hbody'
    obtain rfl | ⟨init, last, rfl⟩ := List.eq_nil_or_concat rest'
    · -- the name of a declared function is outside of it
      obtain ⟨rfl, hlast⟩ := List.append_inj' hbehind rfl
      cases hlast
      cases hm.symm.trans hm'
      obtain ⟨line, form⟩ := m
      cases form with
      | function kind own parameters body =>
        cases kind with
        | declaration =>
          cases own with
          | none => cases hhoisted
          | some own => cases hopens'
        | _ => cases hhoisted
      | _ => cases hfunction
    · have hconcat : rest ++ [0] = r ++ i' :: init ++ [last] := by simpa using hbehind
      rw [hclear r i' init m' (List.append_inj' hconcat rfl).1 hm'] at hfunction
      cases hfunction
  · simp at hlonger

/-- Resolving follows the rules of lexical scoping. -/
theorem symbolHome_around (ht : Shaped P .program t) (hs : t.symbol? p = some s)
    {home : Option (List Nat)} (h : HasHome t p home) :
    symbolHome (around t p) s = homeAt t home := by
  obtain ⟨line, hk⟩ := Node.symbol?_eq_some_iff.1 hs
  cases h with
  | @declared q hdeclares =>
    obtain ⟨n, r, hn, rfl, hdeclares⟩ := hdeclares
    obtain ⟨c, hshaped⟩ := ht.of_mem_preorder (Node.mem_preorder_of_at? hn)
    have hs' := hs
    rw [Node.symbol?_append hn] at hs'
    -- a position just below a scope is in no other one inside of it
    have hdirect : ∀ i, r = [i] → ∀ q' m', OpensAround t q' (q ++ r) m' → q'.length ≤ q.length := by
      rintro i rfl q' m' ⟨j, rest, hp, -⟩
      have hlength := congrArg List.length hp
      simp only [List.length_append, List.length_cons, List.length_nil] at hlength
      omega
    cases hdeclares with
    | @hoisted line form i child m rest hbody hchild hm hclear hhoisted =>
      obtain ⟨d, hmshaped⟩ := (hshaped.child (List.mem_of_getElem? hchild)).choose_spec.of_mem_preorder
        (Node.mem_preorder_of_at? hm)
      rw [Node.symbol?_cons line hchild, Node.symbol?_append hm] at hs'
      have hrole := role_of_hoisted hmshaped hhoisted hs'
      rw [symbolHome_of_declared (by rintro h; simp [h] at hrole) (by rintro h; simp [h] at hrole)]
      exact functionHome_of_hoisted ht hn hbody hchild hm hclear hhoisted hk
    | @parameter line kind own parameters body i hi =>
      have hget := List.getElem?_eq_getElem hi
      rw [Node.symbol?_cons line (Form.getElem?_parameter kind own body hget)] at hs'
      have hrole := role_of_name (hshaped.part (p := (.name .parameter, parameters[i])) (by
        simp [Form.parts, Form.many, Node.form])) hs'
      have hopens : opensFor (.function kind own parameters body) (own.toList.length + i) = true := by
        cases own <;> cases kind <;> simp [opensFor]
      simp only [symbolHome, hrole]
      exact functionHome_around ht.fits hk ⟨_, [], rfl, hn, .inr hopens⟩ rfl
        fun q' m' h _ => hdirect _ rfl q' m' h
    | @ownName line own parameters body =>
      have hrole := role_of_name (hshaped.part (p := (.name .ownName, own)) (.head _)) hs'
      simp only [symbolHome, hrole]
      exact functionHome_around ht.fits hk ⟨0, [], rfl, hn, .inr rfl⟩ rfl
        fun q' m' h _ => hdirect _ rfl q' m' h
    | @caught line own body =>
      have hrole := role_of_name (hshaped.part (p := (.name .caught, own)) (.head _)) hs'
      have hfirst := find?_around ht.fits hk ⟨0, [], rfl, hn, .inr rfl⟩ (fun _ => true) rfl
        fun q' m' h _ => hdirect _ rfl q' m' h
      simp only [symbolHome, hrole]
      cases haround : around t (q ++ [0]) with
      | nil => rw [haround] at hfirst; cases hfirst
      | cons frame frames =>
        rw [haround] at hfirst
        cases hfirst
        rfl
  | @bound q s' hsymbol hrole henclose hdeclares hinnermost =>
    cases hs.symm.trans hsymbol
    obtain ⟨m, hopens⟩ := (encloses_iff ht hs hrole).1 henclose
    obtain ⟨-, -, -, hm, -⟩ := id hopens
    have hfind := find?_around ht.fits hk hopens (s.name ∈ ·.names)
      (decide_eq_true ((declaresName_iff ht hm).1 hdeclares)) fun q' m' hopens' hname => by
        obtain ⟨-, -, -, hm', -⟩ := id hopens'
        exact hinnermost q' ((encloses_iff ht hs hrole).2 ⟨m', hopens'⟩)
          ((declaresName_iff ht hm').2 (of_decide_eq_true hname))
    simp only [symbolHome, hrole]
    rw [homeOf, hfind]
    rfl
  | @free s' hsymbol hrole hundeclared =>
    cases hs.symm.trans hsymbol
    simp only [symbolHome, hrole]
    rw [homeAt, homeOf_eq_free_iff, List.mem_flatMap]
    rintro ⟨frame, hframe, hname⟩
    have hp : p ≠ [] := by
      rintro rfl
      cases hk
      cases ht.fits
    obtain ⟨q, m, hopens, rfl⟩ := (mem_around_iff hk hp).1 hframe
    obtain ⟨-, -, -, hm, -⟩ := id hopens
    exact hundeclared q ((encloses_iff ht hs hrole).2 ⟨m, hopens⟩) ((declaresName_iff ht hm).2 hname)

/-- A name that is not a reference is hoisted, or the scope of the node above it declares it. -/
theorem declares_of_part {c : Category} (line : Option Nat) {form : Form Node} {k : Nat}
    {role : Role} {name : Node} (fits : form.isOf c = true)
    (h : (form.parts c)[k]? = some (.name role, name)) :
    (form.isHoisted = true ∧ k = 0) ∨ (Node.mk line form).Declares [k] := by
  obtain ⟨body, rfl, -⟩ | ⟨value, rfl, -⟩ | hfunction := name_mem_parts (List.mem_of_getElem? h)
  · cases k with
    | zero => exact .inr .caught
    | succ k => cases Form.fst_of_mem_many (List.mem_of_getElem? h)
  · cases k with
    | zero => exact .inl ⟨rfl, rfl⟩
    | succ k => cases Form.fst_of_mem_maybe (List.mem_of_getElem? h)
  · cases form with
    | function kind own parameters body =>
      have hparameter : ∀ i, (Form.many (.name .parameter) parameters ++
          Form.many .statement body)[i]? = some (.name role, name) →
          (Node.mk line (.function kind own parameters body)).Declares
            [own.toList.length + i] := by
        intro i hi
        refine .parameter ?_
        by_contra hle
        rw [List.getElem?_append_right (by simpa [Form.many] using hle)] at hi
        cases Form.fst_of_mem_many (List.mem_of_getElem? hi)
      rw [Form.parts, List.append_assoc] at h
      cases own with
      | none => exact .inr (Nat.zero_add k ▸ hparameter k h)
      | some own =>
        cases k with
        | zero =>
          cases kind with
          | declaration => exact .inl ⟨rfl, rfl⟩
          | expression => exact .inr .ownName
          | _ => cases c <;> cases fits
        | succ k => exact .inr (Nat.add_comm 1 k ▸ hparameter k h)
    | _ => cases hfunction

theorem clearTo_or_exists_function {n m : Node} (h : n.at? p = some m) :
    n.ClearTo p ∨ ∃ q k i child rest, p = q ++ i :: rest ∧ n.at? q = some k ∧
      k.form.isFunction = true ∧ k.form.children[i]? = some child ∧ child.at? rest = some m ∧
      child.ClearTo rest := by
  induction p generalizing n with
  | nil => exact .inl (Node.clearTo_nil n)
  | cons j p ih =>
    obtain ⟨line, form⟩ := n
    obtain ⟨below, hbelow, hm⟩ := Option.bind_eq_some_iff.1 h
    obtain hclear | ⟨q, k, i, child, rest, rfl, hk, hfunction, hchild, hrest, hclear⟩ := ih hm
    · by_cases hfunction : form.isFunction = true
      · exact .inr ⟨[], _, j, below, p, rfl, rfl, hfunction, hbelow, hm, hclear⟩
      · exact .inl ((Node.clearTo_cons hbelow).2 ⟨Bool.eq_false_iff.2 hfunction, hclear⟩)
    · refine .inr ⟨j :: q, k, i, child, rest, rfl, ?_, hfunction, hchild, hrest, hclear⟩
      rw [Node.at?_cons, hbelow]
      exact hk

theorem exists_declares_of_hoisted (ht : Shaped P .program t) {m : Node} (hm : t.at? p = some m)
    (hhoisted : m.form.isHoisted = true) : ∃ q, Declares t q (p ++ [0]) := by
  obtain hclear | ⟨q, k, i, child, rest, rfl, hk, hfunction, hchild, hrest, hclear⟩ :=
    clearTo_or_exists_function hm
  · obtain ⟨line, form⟩ := t
    obtain ⟨rfl, rfl⟩ | ⟨i, rest, child, rfl, hchild, hrest⟩ := Node.at?_cases hm
    · cases form with
      | program body => cases hhoisted
      | _ => cases ht.fits
    · refine ⟨[], _, _, rfl, rfl, .hoisted ?_ hchild hrest ((Node.clearTo_cons hchild).1 hclear).2
        hhoisted⟩
      cases form with
      | program body => rfl
      | _ => cases ht.fits
  · obtain ⟨line, form⟩ := k
    have hbody : form.isBody = true := by
      cases form with
      | function => rfl
      | _ => cases hfunction
    exact ⟨q, _, _, hk, by rw [List.append_assoc, List.cons_append],
      .hoisted hbody hchild hrest hclear hhoisted⟩

theorem exists_declares (ht : Shaped P .program t) (hs : t.symbol? p = some s)
    (hrole : s.role ≠ .reference) : ∃ q, Declares t q p := by
  obtain ⟨line, hk⟩ := Node.symbol?_eq_some_iff.1 hs
  obtain rfl | ⟨init, k, rfl⟩ := List.eq_nil_or_concat p
  · cases hk
    cases ht.fits
  · rw [List.concat_eq_append] at hk ⊢
    rw [Node.at?_append] at hk
    obtain ⟨n, hn, hk⟩ := Option.bind_eq_some_iff.1 hk
    obtain ⟨c, hshaped⟩ := ht.of_mem_preorder (Node.mem_preorder_of_at? hn)
    obtain ⟨l, form⟩ := n
    obtain ⟨child, hchild, hsymbol⟩ := Option.bind_eq_some_iff.1 hk
    cases hsymbol
    rw [Node.form, ← Form.snd_parts c, List.getElem?_map, Option.map_eq_some_iff] at hchild
    obtain ⟨⟨c', child⟩, hpart, rfl⟩ := hchild
    obtain hreference | rfl := role_of_shaped (hshaped.part (List.mem_of_getElem? hpart))
    · exact absurd hreference hrole
    · obtain ⟨hhoisted, rfl⟩ | hdeclares := declares_of_part l hshaped.fits hpart
      · exact exists_declares_of_hoisted ht hn hhoisted
      · exact ⟨init, _, _, hn, rfl, hdeclares⟩

theorem exists_hasHome (ht : Shaped P .program t) (hs : t.symbol? p = some s) :
    ∃ home, HasHome t p home := by
  obtain ⟨line, hk⟩ := Node.symbol?_eq_some_iff.1 hs
  by_cases hrole : s.role = .reference
  · have hp : p ≠ [] := by
      rintro rfl
      cases hk
      cases ht.fits
    cases hfind : (around t p).find? (s.name ∈ ·.names) with
    | none =>
      refine ⟨none, .free hs hrole fun q henclose hname => ?_⟩
      obtain ⟨m, hopens⟩ := (encloses_iff ht hs hrole).1 henclose
      obtain ⟨-, -, -, hm, -⟩ := id hopens
      exact absurd (decide_eq_true ((declaresName_iff ht hm).1 hname))
        (List.find?_eq_none.1 hfind _ ((mem_around_iff hk hp).2 ⟨q, m, hopens, rfl⟩))
    | some frame =>
      obtain ⟨q, m, hopens, rfl⟩ := (mem_around_iff hk hp).1 (List.mem_of_find?_eq_some hfind)
      obtain ⟨-, -, -, hm, -⟩ := id hopens
      have hname := List.find?_some hfind
      refine ⟨some q, .bound hs hrole ((encloses_iff ht hs hrole).2 ⟨m, hopens⟩)
        ((declaresName_iff ht hm).2 (of_decide_eq_true hname)) fun r henclose hdeclares => ?_⟩
      obtain ⟨m', hopens'⟩ := (encloses_iff ht hs hrole).1 henclose
      obtain ⟨-, -, -, hm', -⟩ := id hopens'
      have hle := le_of_find?_eq_some (nested_around ht.fits hk) hfind
        ((mem_around_iff hk hp).2 ⟨r, m', hopens', rfl⟩)
        (decide_eq_true ((declaresName_iff ht hm').1 hdeclares))
      simpa only [scopeFrame, length_addressAt hm, length_addressAt hm'] using hle
  · obtain ⟨q, hdeclares⟩ := exists_declares ht hs hrole
    exact ⟨some q, .declared hdeclares⟩

/-! ## Resolved programs -/

theorem exists_at?_of_hasHome (h : HasHome t p (some q)) : ∃ m, t.at? q = some m := by
  cases h with
  | declared h =>
    obtain ⟨n, -, hn, -⟩ := h
    exact ⟨n, hn⟩
  | bound _ _ h =>
    obtain ⟨⟨n, hn, -⟩, -⟩ := h
    exact ⟨n, hn⟩

theorem homeAt_inj {home home' : Option (List Nat)} (hp : HasHome t p home)
    (hq : HasHome t q home') (h : homeAt t home = homeAt t home') : home = home' := by
  cases home with
  | none =>
    cases home' with
    | none => rfl
    | some r => cases h
  | some r =>
    cases home' with
    | none => cases h
    | some r' =>
      obtain ⟨m, hm⟩ := exists_at?_of_hasHome hp
      obtain ⟨k, hk⟩ := exists_at?_of_hasHome hq
      rw [addressAt_inj hm hk (Home.scope.inj h)]

theorem resolve_eq_resolveIn (ht : Shaped P .program t) (h : t.resolve = .ok resolved) :
    resolved = resolveIn t [scopeFrame t.form []] [] := by
  obtain ⟨line, body, rfl, -, hr⟩ := exists_resolveBody ht
  rw [Except.ok.inj (h.symm.trans hr)]
  exact (resolveIn_program line body).symm

theorem symbol?_resolve (ht : Shaped P .program t) (h : t.resolve = .ok resolved) (p : List Nat) :
    resolved.symbol? p =
      (t.symbol? p).map fun s => { s with home := some (symbolHome (around t p) s) } := by
  rw [resolve_eq_resolveIn ht h]
  refine Option.ext fun u => ?_
  rw [Node.symbol?_eq_some_iff, Option.map_eq_some_iff]
  constructor
  · rintro ⟨line, hu⟩
    rw [at?_resolveIn, Option.map_eq_some_iff] at hu
    obtain ⟨m, hm, hu⟩ := hu
    obtain ⟨s, rfl, rfl⟩ := eq_symbol_of_resolveIn hu
    exact ⟨s, Node.symbol?_eq_some_iff.2 ⟨line, hm⟩, rfl⟩
  · rintro ⟨s, hs, rfl⟩
    obtain ⟨line, hs⟩ := Node.symbol?_eq_some_iff.1 hs
    refine ⟨line, ?_⟩
    rw [at?_resolveIn, hs, Option.map_some, resolveIn_symbol]
    rfl

/-! ## Tables -/

/-- The positions of the names of a tree, from the top down. -/
def symbolPositions (n : Node) : List (List Nat) :=
  n.positions.filter fun p => (n.symbol? p).isSome

theorem pairwise_symbolPositions (n : Node) : (symbolPositions n).Pairwise (· < ·) :=
  n.pairwise_positions.filter _

theorem mem_symbolPositions_iff {n : Node} :
    p ∈ symbolPositions n ↔ (n.symbol? p).isSome = true := by
  rw [symbolPositions, List.mem_filter, Node.mem_positions_iff, and_iff_right_iff_imp]
  intro h
  obtain ⟨s, hs⟩ := Option.isSome_iff_exists.1 h
  obtain ⟨line, hs⟩ := Node.symbol?_eq_some_iff.1 hs
  rw [hs]
  rfl

theorem getElem?_filterMap {α β : Type} (l : List α) (g : α → Option β) (i : Nat) :
    (l.filterMap g)[i]? = (l.filter fun a => (g a).isSome)[i]?.bind g := by
  induction l generalizing i with
  | nil => rfl
  | cons a l ih =>
    cases hg : g a with
    | none => rw [List.filterMap_cons_none hg, List.filter_cons_of_neg (by simp [hg]), ih]
    | some b =>
      rw [List.filterMap_cons_some hg, List.filter_cons_of_pos (by simp [hg])]
      cases i with
      | zero => exact hg.symm
      | succ i => exact ih i

theorem getElem?_symbols (n : Node) (i : Nat) :
    ((symbols n)[i]?).map Prod.fst = (symbolPositions n)[i]?.bind n.symbol? := by
  have hsymbols : (symbols n).map Prod.fst = n.positions.filterMap n.symbol? := by
    rw [symbols, ← Node.filterMap_at?_positions, List.filterMap_filterMap, List.map_filterMap]
    refine List.filterMap_congr fun p _ => ?_
    rw [Node.symbol?]
    cases n.at? p with
    | none => rfl
    | some m =>
      obtain ⟨line, form⟩ := m
      cases form <;> rfl
  rw [← List.getElem?_map, hsymbols, getElem?_filterMap, symbolPositions]

theorem mem_positions_iff {n : Node} {d : Definition} {roles : List Role} {i : Nat} :
    i ∈ positions n d roles ↔ ∃ p s, (symbolPositions n)[i]? = some p ∧ n.symbol? p = some s ∧
      s.role ∈ roles ∧ definition? s = some d := by
  have hentry : i ∈ positions n d roles ↔
      ∃ s, ((symbols n)[i]?).map Prod.fst = some s ∧ s.role ∈ roles ∧ definition? s = some d := by
    simp only [positions, List.mem_filterMap, List.mem_zipIdx_iff_getElem?, Option.ite_none_right_eq_some,
      Bool.and_eq_true, decide_eq_true_eq, Option.map_eq_some_iff]
    constructor
    · rintro ⟨⟨s, j⟩, hs, ⟨hd, hrole⟩, hj⟩
      cases hj
      exact ⟨s.1, ⟨s, hs, rfl⟩, hrole, hd⟩
    · rintro ⟨_, ⟨s, hs, rfl⟩, hrole, hd⟩
      exact ⟨(s, i), hs, ⟨hd, hrole⟩, rfl⟩
  simp only [hentry, getElem?_symbols, Option.bind_eq_some_iff]
  constructor
  · rintro ⟨s, ⟨p, hp, hs⟩, hrole, hd⟩
    exact ⟨p, s, hp, hs, hrole, hd⟩
  · rintro ⟨p, s, hp, hs, hrole, hd⟩
    exact ⟨s, ⟨p, hp, hs⟩, hrole, hd⟩

/-- The table lists the names of a definition in the order of the tree, each once. -/
theorem pairwise_tablePositions (n : Node) (d : Definition) (roles : List Role) :
    (positions n d roles).Pairwise (· < ·) := by
  have hindices : (symbols n).zipIdx.Pairwise fun a b => a.2 < b.2 := by
    rw [← List.pairwise_map, List.zipIdx_map_snd]
    exact List.pairwise_lt_range'
  refine List.pairwise_filterMap.2 (hindices.imp fun hlt i hi j hj => ?_)
  rw [Option.ite_none_right_eq_some] at hi hj
  cases hi.2
  cases hj.2
  exact hlt

theorem mem_definitions_iff {n : Node} {d : Definition} :
    d ∈ definitions n ↔ ∃ p s, n.symbol? p = some s ∧ definition? s = some d := by
  rw [definitions, List.mem_eraseDups, List.mem_filterMap]
  constructor
  · rintro ⟨s, hs, hd⟩
    obtain ⟨i, hi⟩ := List.mem_iff_getElem?.1 hs
    have hsymbol := getElem?_symbols n i
    rw [hi, Option.map_some] at hsymbol
    obtain ⟨p, -, hp⟩ := Option.bind_eq_some_iff.1 hsymbol.symm
    exact ⟨p, s.1, hp, hd⟩
  · rintro ⟨p, s, hs, hd⟩
    obtain ⟨i, hi⟩ := List.mem_iff_getElem?.1
      (mem_symbolPositions_iff.2 (Option.isSome_iff_exists.2 ⟨s, hs⟩))
    have hsymbol := getElem?_symbols n i
    rw [hi, Option.bind_some, hs] at hsymbol
    obtain ⟨u, hu, rfl⟩ := Option.map_eq_some_iff.1 hsymbol
    exact ⟨u, List.mem_of_getElem? hu, hd⟩

theorem nodup_eraseDups {α : Type} [BEq α] [LawfulBEq α] (l : List α) : l.eraseDups.Nodup := by
  induction h : l.length using Nat.strongRecOn generalizing l with
  | ind k ih =>
    cases l with
    | nil => exact .nil
    | cons a l =>
      rw [List.eraseDups_cons]
      refine List.nodup_cons.2 ⟨by simp [List.mem_eraseDups], ih _ ?_ _ rfl⟩
      have := List.length_filter_le (fun b => !b == a) l
      simp only [List.length_cons] at h
      omega

theorem hasHome_unique (ht : Shaped P .program t) (hs : t.symbol? p = some s)
    {home home' : Option (List Nat)} (h : HasHome t p home) (h' : HasHome t p home') :
    home = home' :=
  homeAt_inj h h' ((symbolHome_around ht hs h).symm.trans (symbolHome_around ht hs h'))

theorem symbol?_of_hasHome (ht : Shaped P .program t) (hr : t.resolve = .ok resolved)
    (hs : t.symbol? p = some s) {home : Option (List Nat)} (h : HasHome t p home) :
    resolved.symbol? p = some { s with home := some (homeAt t home) } := by
  rw [symbol?_resolve ht hr, hs, Option.map_some, symbolHome_around ht hs h]

end Scope

/-- A resolved program has the bindings of lexical scoping. Every name has one home by the rules, and
it is the home that resolving notes. A name with its home is one definition. The table of a definition
lists the references to it in the order of the tree, each once. -/
structure LexicallyScoped (t resolved : Node) : Prop where
  homes : ∀ p s, t.symbol? p = some s → ∃! home, Scope.HasHome t p home
  resolves : ∀ p s home, t.symbol? p = some s → Scope.HasHome t p home →
    resolved.symbol? p = some { s with home := some (Scope.homeAt t home) }
  shares : ∀ p q s u home home', t.symbol? p = some s → t.symbol? q = some u →
    Scope.HasHome t p home → Scope.HasHome t q home' →
    ((resolved.symbol? p).bind Scope.definition? = (resolved.symbol? q).bind Scope.definition? ↔
      s.name = u.name ∧ home = home')
  order : (Scope.symbolPositions resolved).Pairwise (· < ·) ∧
    ∀ p, p ∈ Scope.symbolPositions resolved ↔ (t.symbol? p).isSome = true
  definitions : (Scope.definitions resolved).Nodup ∧ ∀ d, d ∈ Scope.definitions resolved ↔
    ∃ p s home, t.symbol? p = some s ∧ Scope.HasHome t p home ∧ d = ⟨Scope.homeAt t home, s.name⟩
  references : ∀ d, (Scope.references resolved d).Pairwise (· < ·) ∧
    ∀ i, i ∈ Scope.references resolved d ↔ ∃ p s home, (Scope.symbolPositions resolved)[i]? = some p ∧
      t.symbol? p = some s ∧ s.role = .reference ∧ Scope.HasHome t p home ∧
      d = ⟨Scope.homeAt t home, s.name⟩

namespace Scope

variable {P : Form Node → Prop} {t resolved : Node} {p : List Nat}

/-- The names of a definition are those with its name and home by the rules. -/
theorem exists_definition_iff (ht : Shaped P .program t) (hr : t.resolve = .ok resolved)
    {d : Definition} {Q : Role → Prop} :
    (∃ s, resolved.symbol? p = some s ∧ Q s.role ∧ definition? s = some d) ↔
      ∃ s home, t.symbol? p = some s ∧ Q s.role ∧ HasHome t p home ∧
        d = ⟨homeAt t home, s.name⟩ := by
  constructor
  · rintro ⟨u, hu, hrole, hd⟩
    have hsymbol := symbol?_resolve ht hr p
    rw [hu] at hsymbol
    obtain ⟨s, hs, rfl⟩ := Option.map_eq_some_iff.1 hsymbol.symm
    obtain ⟨home, hhome⟩ := exists_hasHome ht hs
    refine ⟨s, home, hs, hrole, hhome, ?_⟩
    rw [symbolHome_around ht hs hhome] at hd
    exact (Option.some.inj hd).symm
  · rintro ⟨s, home, hs, hrole, hhome, rfl⟩
    exact ⟨_, symbol?_of_hasHome ht hr hs hhome, hrole, rfl⟩

theorem lexicallyScoped (ht : Shaped P .program t) (hr : t.resolve = .ok resolved) :
    LexicallyScoped t resolved where
  homes p s hs := by
    obtain ⟨home, hhome⟩ := exists_hasHome ht hs
    exact ⟨home, hhome, fun home' h => hasHome_unique ht hs h hhome⟩
  resolves p s home hs hhome := symbol?_of_hasHome ht hr hs hhome
  shares p q s u home home' hs hu hhome hhome' := by
    rw [symbol?_of_hasHome ht hr hs hhome, symbol?_of_hasHome ht hr hu hhome']
    constructor
    · intro h
      obtain ⟨hhomes, hname⟩ := Definition.mk.inj (Option.some.inj h)
      exact ⟨hname, homeAt_inj hhome hhome' hhomes⟩
    · rintro ⟨hname, rfl⟩
      simp only [Option.bind_some, definition?, Option.map_some, hname]
  order := by
    refine ⟨pairwise_symbolPositions resolved, fun p => ?_⟩
    rw [mem_symbolPositions_iff, symbol?_resolve ht hr, Option.isSome_map]
  definitions := by
    refine ⟨nodup_eraseDups _, fun d => mem_definitions_iff.trans (exists_congr fun p => ?_)⟩
    simpa using exists_definition_iff ht hr (p := p) (d := d) (Q := fun _ => True)
  references d := by
    refine ⟨pairwise_tablePositions resolved d _, fun i => mem_positions_iff.trans
      (exists_congr fun p => ?_)⟩
    simp only [List.mem_singleton, exists_and_left]
    rw [exists_definition_iff ht hr (Q := (· = .reference))]
    simp only [exists_and_left]

end Scope

/-- Every program that is read can be resolved, and then has the bindings of lexical scoping. -/
theorem lexicallyScoped_of_parse {file : String} {text : String} {t : Node}
    (h : (parse file text).result = .ok t) :
    ∃ resolved, t.resolve = .ok resolved ∧ LexicallyScoped t resolved := by
  have ht := shaped_of_parse h
  obtain ⟨resolved, hr, -⟩ := exists_resolve ht
  exact ⟨resolved, hr, Scope.lexicallyScoped ht hr⟩

/-- A variable that is declared in a handler which catches the same name. -/
def shadowed : String :=
  "var f=function g(x)\x7btry\x7by\x7dcatch(x)\x7bvar x;g(x)\x7d\x7d"

theorem homes_shadowed :
    ((parse unnamedFile shadowed).result.toOption.bind fun t => t.resolve.toOption.map fun resolved =>
      (Scope.symbols resolved).map fun s => (s.1.name, s.1.role, s.1.home)) =
      some [("f", .variable, some (.scope [])), ("g", .ownName, some (.scope [0, 0, 1])),
        ("x", .parameter, some (.scope [0, 0, 1])), ("y", .reference, some .free),
        ("x", .caught, some (.scope [0, 0, 1, 2, 0])), ("x", .variable, some (.scope [0, 0, 1])),
        ("g", .reference, some (.scope [0, 0, 1])),
        ("x", .reference, some (.scope [0, 0, 1, 2, 0]))] := by
  decide +kernel

theorem lexicallyScoped_shadowed :
    ∃ t resolved, (parse unnamedFile shadowed).result = .ok t ∧ t.resolve = .ok resolved ∧
      LexicallyScoped t resolved := by
  obtain ⟨t, ht, hsymbols⟩ := Option.bind_eq_some_iff.1 homes_shadowed
  have hparse := eq_ok_of_toOption ht
  obtain ⟨resolved, hr, hscoped⟩ := lexicallyScoped_of_parse hparse
  exact ⟨t, resolved, hparse, hr, hscoped⟩

end Debundle
