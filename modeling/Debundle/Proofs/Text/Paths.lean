import Mathlib
import Debundle.Text.Path

/-!
# Walks along paths

A path is walked from one component to the next: an empty component and `.` stay where they are, `..`
goes back over a name, and a name goes on. What is reached is some number of `..`, which an absolute
path has none of, and then names. A later walk depends on nothing else (`walk_walk`).
-/
namespace Debundle.Path

/-! ## Components -/

theorem components_eq (p : List Char) : components p = p.splitOn '/' := by
  induction p with
  | nil => rfl
  | cons c p ih =>
    unfold components at ih
    rw [components, Text.splitOn, ih, List.splitOn_cons_eq_if_modifyHead]
    by_cases hc : c = '/'
    · simp [hc]
    · rw [if_neg hc, if_neg (by simpa using hc)]
      cases hp : p.splitOn '/' with
      | nil => exact absurd hp (List.splitOn_ne_nil _ _)
      | cons first others => rfl

theorem components_append_slash (a b : List Char) :
    components (a ++ '/' :: b) = components a ++ components b := by
  simp only [components_eq, List.splitOn_append_cons_self]

theorem components_ofComponents {parts : List (List Char)} (hne : parts ≠ [])
    (h : ∀ c ∈ parts, '/' ∉ c) : components (ofComponents parts) = parts := by
  rw [components_eq, ofComponents]
  exact List.splitOn_intercalate '/' h hne

theorem slash_notMem_of_mem_components {p c : List Char} (h : c ∈ components p) : '/' ∉ c := by
  induction p generalizing c with
  | nil =>
    cases List.mem_singleton.1 h
    exact List.not_mem_nil
  | cons d p ih =>
    rw [components_eq, List.splitOn_cons_eq_if_modifyHead, ← components_eq] at h
    split_ifs at h with hd
    · obtain rfl | h := List.mem_cons.1 h
      · exact List.not_mem_nil
      · exact ih h
    · cases hp : components p with
      | nil => simp [hp] at h
      | cons first others =>
        rw [hp] at h ih
        obtain rfl | h := List.mem_cons.1 h
        · have hfirst : '/' ∉ first := ih (.head _)
          simp only [List.mem_cons, hfirst, or_false]
          exact fun heq => hd (beq_iff_eq.2 heq.symm)
        · exact ih (.tail _ h)

/-! ## Walks -/

/-- A component that is neither empty nor `.` nor `..`. -/
structure IsName (c : List Char) : Prop where
  ne_nil : c ≠ []
  ne_here : c ≠ here
  ne_up : c ≠ up
  slash : '/' ∉ c

theorem component_cases {c : List Char} (h : '/' ∉ c) : c = [] ∨ c = here ∨ c = up ∨ IsName c := by
  by_cases h₁ : c = []
  · exact .inl h₁
  by_cases h₂ : c = here
  · exact .inr (.inl h₂)
  by_cases h₃ : c = up
  · exact .inr (.inr (.inl h₃))
  exact .inr (.inr (.inr ⟨h₁, h₂, h₃, h⟩))

/-- What is reached from a place by some components. -/
def walk (rooted : Bool) (place cs : List (List Char)) : List (List Char) :=
  (cs.foldl (push rooted) place.reverse).reverse

variable {rooted : Bool} {place cs ds : List (List Char)} {c : List Char}

@[simp] theorem walk_nil : walk rooted place [] = place :=
  List.reverse_reverse place

theorem walk_append : walk rooted place (cs ++ ds) = walk rooted (walk rooted place cs) ds := by
  simp [walk, List.foldl_append]

theorem walk_cons : walk rooted place (c :: cs) = walk rooted (walk rooted place [c]) cs := by
  rw [← List.singleton_append, walk_append]

@[simp] theorem walk_empty : walk rooted place [[]] = place := by
  simp [walk, push]

@[simp] theorem walk_here : walk rooted place [here] = place := by
  simp [walk, push]

theorem walk_name (hc : IsName c) : walk rooted place [c] = place ++ [c] := by
  simp [walk, push, hc.ne_nil, hc.ne_here, hc.ne_up]

theorem walk_name_up (hc : IsName c) : walk rooted (place ++ [c]) [up] = place := by
  have hup : push rooted (c :: place.reverse) up = place.reverse := by
    simp [push, hc.ne_up, show up ≠ [] from nofun, show up ≠ here from nofun]
  simp [walk, hup]

theorem walk_replicate_up (n : Nat) :
    walk false (List.replicate n up) [up] = List.replicate (n + 1) up := by
  cases n with
  | zero => rfl
  | succ n =>
    have hup : ∀ parts, push false (up :: parts) up = up :: up :: parts := fun parts => by
      simp [push, show up ≠ [] from nofun, show up ≠ here from nofun]
    rw [List.replicate_succ', walk, List.reverse_append, List.reverse_singleton, List.singleton_append,
      List.foldl_cons, List.foldl_nil, hup, List.reverse_cons, List.reverse_cons, List.reverse_reverse,
      ← List.replicate_succ', ← List.replicate_succ']

theorem walk_names (h : ∀ c ∈ cs, IsName c) : walk rooted place cs = place ++ cs := by
  induction cs generalizing place with
  | nil => simp
  | cons c cs ih =>
    rw [walk_cons, walk_name (h c (.head _)), ih fun d hd => h d (.tail _ hd)]
    simp

/-- Some number of `..`, none of them for an absolute path, and then names. -/
def IsReached (rooted : Bool) (place : List (List Char)) : Prop :=
  ∃ climbs names, place = List.replicate climbs up ++ names ∧ (∀ c ∈ names, IsName c) ∧
    (rooted = true → climbs = 0)

theorem isReached_nil : IsReached rooted [] :=
  ⟨0, [], rfl, nofun, fun _ => rfl⟩

/-- Where a component leads: an empty one and `.` stay, a name goes on, and `..` goes back over a name,
stays at the root or climbs. -/
theorem step_cases (hplace : IsReached rooted place) (hc : '/' ∉ c) :
    (c = [] ∨ c = here ∨ c = up ∧ rooted = true ∧ place = []) ∧ walk rooted place [c] = place ∨
    (IsName c ∨ c = up ∧ rooted = false ∧ ∃ n, place = List.replicate n up) ∧
      walk rooted place [c] = place ++ [c] ∨
    c = up ∧ ∃ before name, IsReached rooted before ∧ IsName name ∧ place = before ++ [name] ∧
      walk rooted place [c] = before := by
  obtain ⟨n, names, rfl, hnames, hn⟩ := hplace
  obtain rfl | rfl | rfl | hname := component_cases hc
  · exact .inl ⟨.inl rfl, walk_empty⟩
  · exact .inl ⟨.inr (.inl rfl), walk_here⟩
  · obtain rfl | ⟨before, last, rfl⟩ := names.eq_nil_or_concat'
    · cases rooted with
      | true =>
        obtain rfl := hn rfl
        exact .inl ⟨.inr (.inr ⟨rfl, rfl, rfl⟩), rfl⟩
      | false =>
        rw [List.append_nil]
        exact .inr (.inl ⟨.inr ⟨rfl, rfl, n, rfl⟩, (walk_replicate_up n).trans List.replicate_succ'⟩)
    · have hlast : IsName last := hnames last (by simp)
      have hbefore : ∀ c ∈ before, IsName c := fun c hc => hnames c (List.mem_append_left _ hc)
      rw [← List.append_assoc]
      exact .inr (.inr ⟨rfl, _, last, ⟨n, before, rfl, hbefore, hn⟩, hlast, rfl, walk_name_up hlast⟩)
  · exact .inr (.inl ⟨.inl hname, walk_name hname⟩)

theorem IsReached.walk (hplace : IsReached rooted place) (hcs : ∀ c ∈ cs, '/' ∉ c) :
    IsReached rooted (walk rooted place cs) := by
  induction cs generalizing place with
  | nil => rwa [walk_nil]
  | cons c cs ih =>
    rw [walk_cons]
    refine ih ?_ fun d hd => hcs d (.tail _ hd)
    obtain ⟨-, heq⟩ | ⟨hname | ⟨rfl, rfl, n, rfl⟩, heq⟩ | ⟨-, before, name, hbefore, -, -, heq⟩ :=
      step_cases hplace (hcs c (.head _))
    · rwa [heq]
    · obtain ⟨n, names, rfl, hnames, hn⟩ := hplace
      refine heq ▸ ⟨n, names ++ [c], List.append_assoc _ _ _, fun d hd => ?_, hn⟩
      obtain hd | hd := List.mem_append.1 hd
      · exact hnames d hd
      · rwa [List.mem_singleton.1 hd]
    · exact heq ▸ ⟨n + 1, [], by simp [List.replicate_succ'], nofun, nofun⟩
    · rwa [heq]

theorem walk_walk (hcs : ∀ c ∈ cs, '/' ∉ c) :
    Path.walk rooted place (Path.walk false [] cs) = Path.walk rooted place cs := by
  induction cs using List.reverseRecOn with
  | nil => rfl
  | append_singleton cs c ih =>
    have hcs' : ∀ c ∈ cs, '/' ∉ c := fun d hd => hcs d (List.mem_append_left _ hd)
    specialize ih hcs'
    rw [walk_append, walk_append]
    obtain ⟨hstay, heq⟩ | ⟨-, heq⟩ | ⟨rfl, before, name, -, hname, hcs, heq⟩ :=
      step_cases (isReached_nil.walk hcs') (hcs c (by simp))
    · rw [heq, ih]
      obtain rfl | rfl | ⟨-, hrooted, -⟩ := hstay
      · rw [walk_empty]
      · rw [walk_here]
      · cases hrooted
    · rw [heq, walk_append, ih]
    · rw [heq, ← ih, hcs, walk_append, walk_name hname, walk_name_up hname]

/-! ## Climbing -/

theorem walk_ups_of_le (rooted : Bool) (place : List (List Char)) {names : List (List Char)}
    (hnames : ∀ c ∈ names, IsName c) {k : Nat} (hk : k ≤ names.length) :
    walk rooted (place ++ names) (List.replicate k up) =
      place ++ names.take (names.length - k) := by
  induction k generalizing names with
  | zero => simp
  | succ k ih =>
    obtain rfl | ⟨before, last, rfl⟩ := names.eq_nil_or_concat'
    · simp at hk
    · rw [List.length_append, List.length_singleton] at hk ⊢
      rw [List.replicate_succ, walk_cons, ← List.append_assoc, walk_name_up (hnames last (by simp)),
        ih (fun c hc => hnames c (List.mem_append_left _ hc)) (by omega),
        List.take_append_of_le_length (by omega)]
      congr 2
      omega

theorem walk_ups_false (n k : Nat) :
    walk false (List.replicate n up) (List.replicate k up) = List.replicate (n + k) up := by
  induction k generalizing n with
  | zero => simp
  | succ k ih =>
    rw [List.replicate_succ, walk_cons, walk_replicate_up, ih]
    congr 1
    omega

theorem walk_ups_true {names : List (List Char)} (hnames : ∀ c ∈ names, IsName c) (k : Nat) :
    walk true names (List.replicate k up) = names.take (names.length - k) := by
  have hroot : ∀ k, walk true [] (List.replicate k up) = [] := by
    intro k
    induction k with
    | zero => rfl
    | succ k ih => exact ih
  obtain hk | hk := Nat.le_total k names.length
  · exact walk_ups_of_le true [] hnames hk
  · obtain ⟨j, rfl⟩ := Nat.exists_eq_add_of_le hk
    have hall : walk true names (List.replicate names.length up) = [] := by
      simpa using walk_ups_of_le true [] hnames Nat.le.refl
    rw [← List.replicate_append_replicate, walk_append, hall, hroot]
    simp

/-! ## Roots -/

theorem isAbsolute_iff {p : List Char} : isAbsolute p = true ↔ p.head? = some '/' := by
  cases p with
  | nil => simp [isAbsolute]
  | cons c p => by_cases hc : c = '/' <;> simp [isAbsolute, hc]

/-- The slashes at the start of a path. -/
def slashes (p : List Char) : List Char :=
  p.takeWhile (· = '/')

theorem slashes_eq_nil_iff {p : List Char} : slashes p = [] ↔ isAbsolute p = false := by
  cases p with
  | nil => simp [isAbsolute, slashes]
  | cons c p => by_cases hc : c = '/' <;> simp [isAbsolute, slashes, hc]

/-- Any number of slashes other than two counts as one. -/
theorem root_eq (p : List Char) :
    root p = if (slashes p).length = 2 then ['/', '/'] else (slashes p).take 1 := by
  -- the first three characters tell
  rcases p with _ | ⟨x, p⟩
  · rfl
  by_cases hx : x = '/'
  · subst hx
    rcases p with _ | ⟨y, p⟩
    · rfl
    by_cases hy : y = '/'
    · subst hy
      rcases p with _ | ⟨z, p⟩
      · rfl
      by_cases hz : z = '/' <;> simp [root, slashes, hz]
    · simp [root, slashes, hy]
  · simp [root, slashes, hx]

theorem root_eq_nil_iff {p : List Char} : root p = [] ↔ isAbsolute p = false := by
  rw [root_eq, ← slashes_eq_nil_iff]
  split_ifs with h
  · simp [← List.length_eq_zero_iff, h]
  · simp

theorem root_append {a b : List Char} (hb : isAbsolute b = false) : root (a ++ b) = root a := by
  have hslashes : slashes (a ++ b) = slashes a := by
    rw [← slashes_eq_nil_iff] at hb
    unfold slashes at hb ⊢
    rw [List.takeWhile_append, hb, List.append_nil]
    split_ifs with h
    · exact ((List.takeWhile_prefix _).eq_of_length h).symm
    · rfl
  rw [root_eq, root_eq, hslashes]

theorem root_append_slash {a b : List Char} {c : Char} (ha : a.getLast? = some c) (hc : c ≠ '/') :
    root (a ++ '/' :: b) = root a := by
  have hslashes : slashes (a ++ '/' :: b) = slashes a := by
    unfold slashes
    rw [List.takeWhile_append, if_neg fun h => ?_]
    have heq := (List.takeWhile_prefix _).eq_of_length h
    have hmem : c ∈ a.takeWhile (· = '/') := by
      rw [heq]
      exact List.mem_of_getLast? ha
    simpa [hc] using List.all_eq_true.1 List.all_takeWhile c hmem
  rw [root_eq, root_eq, hslashes]

theorem root_join {a b : List Char} (hb : isAbsolute b = false) : root (join a b) = root a := by
  unfold join
  rw [hb, if_neg Bool.false_ne_true]
  split_ifs with ha
  · exact root_append hb
  · simp only [Bool.or_eq_true, decide_eq_true_eq, not_or] at ha
    have hlast := List.getLast?_eq_some_getLast ha.1
    exact root_append_slash hlast fun h => ha.2 (h ▸ hlast)

theorem isAbsolute_eq_of_root {p q : List Char} (h : root p = root q) : isAbsolute p = isAbsolute q := by
  rw [Bool.eq_iff_iff, ← Bool.not_eq_false, ← Bool.not_eq_false, ← root_eq_nil_iff,
    ← root_eq_nil_iff, h]

theorem walk_components_join {a b : List Char} (hb : isAbsolute b = false) :
    walk rooted place (components (join a b)) =
      walk rooted (walk rooted place (components a)) (components b) := by
  unfold join
  rw [hb, if_neg Bool.false_ne_true]
  have hempty : components [] = [[]] := rfl
  split_ifs with ha
  · simp only [Bool.or_eq_true, decide_eq_true_eq] at ha
    obtain rfl | hlast := ha
    · rw [List.nil_append, hempty, walk_empty]
    · obtain ⟨before, rfl⟩ := List.getLast?_eq_some_iff.1 hlast
      rw [List.append_assoc, List.singleton_append, components_append_slash, components_append_slash,
        walk_append, walk_append, hempty, walk_empty]
  · rw [components_append_slash, walk_append]

/-! ## Parts -/

/-- The components of a path that count. -/
def parts (p : List Char) : List (List Char) :=
  walk (isAbsolute p) [] (components p)

theorem isReached_parts (p : List Char) : IsReached (isAbsolute p) (parts p) :=
  isReached_nil.walk fun _ => slash_notMem_of_mem_components

theorem normalize_eq (p : List Char) :
    normalize p = if root p ++ ofComponents (parts p) = [] then here
      else root p ++ ofComponents (parts p) :=
  rfl

theorem parts_join {a b : List Char} (hb : isAbsolute b = false) :
    parts (join a b) = walk (isAbsolute a) (parts a) (components b) := by
  rw [parts, isAbsolute_eq_of_root (root_join hb), walk_components_join hb]
  rfl

theorem IsReached.slash_notMem (h : IsReached rooted place) (hc : c ∈ place) : '/' ∉ c := by
  obtain ⟨n, names, rfl, hnames, -⟩ := h
  obtain hc | hc := List.mem_append.1 hc
  · rw [List.eq_of_mem_replicate hc]
    decide
  · exact (hnames c hc).slash

theorem IsReached.ne_nil (h : IsReached rooted place) (hc : c ∈ place) : c ≠ [] := by
  obtain ⟨n, names, rfl, hnames, -⟩ := h
  obtain hc | hc := List.mem_append.1 hc
  · rw [List.eq_of_mem_replicate hc]
    decide
  · exact (hnames c hc).ne_nil

theorem IsReached.walk_nil (h : IsReached rooted place) : Path.walk rooted [] place = place := by
  obtain ⟨n, names, rfl, hnames, hn⟩ := h
  have hclimb : Path.walk rooted [] (List.replicate n up) = List.replicate n up := by
    cases rooted with
    | true => rw [hn rfl]; rfl
    | false => simpa using walk_ups_false 0 n
  rw [walk_append, hclimb, walk_names hnames]

@[simp] theorem root_root (p : List Char) : root (root p) = root p := by
  fun_cases root p <;> rfl

theorem components_root_append (p x : List Char) :
    ∃ n, components (root p ++ x) = List.replicate n [] ++ components x := by
  have hslash : ∀ x, components ('/' :: x) = [] :: components x := components_append_slash []
  fun_cases root p
  · exact ⟨1, hslash x⟩
  · exact ⟨2, (hslash _).trans (congrArg _ (hslash x))⟩
  · exact ⟨1, hslash x⟩
  · exact ⟨0, rfl⟩

theorem walk_components_root (p x : List Char) :
    walk rooted place (components (root p ++ x)) = walk rooted place (components x) := by
  obtain ⟨n, hn⟩ := components_root_append p x
  have hempty : ∀ n, walk rooted place (List.replicate n []) = place := by
    intro n
    induction n with
    | zero => exact walk_nil
    | succ n ih => rw [List.replicate_succ, walk_cons, walk_empty, ih]
  rw [hn, walk_append, hempty]

theorem ofComponents_cons (c : List Char) (cs : List (List Char)) :
    ofComponents (c :: cs) = c ++ (cs.map ('/' :: ·)).flatten := by
  induction cs generalizing c with
  | nil => simp [ofComponents, List.intercalate]
  | cons d cs ih =>
    have hcons : ofComponents (c :: d :: cs) = c ++ '/' :: ofComponents (d :: cs) := by
      simp [ofComponents, List.intercalate]
    rw [hcons, ih]
    rfl

theorem isAbsolute_ofComponents (hne : ∀ c ∈ cs, c ≠ []) (hslash : ∀ c ∈ cs, '/' ∉ c) :
    isAbsolute (ofComponents cs) = false := by
  cases cs with
  | nil => rfl
  | cons c cs =>
    obtain ⟨x, c, rfl⟩ := List.exists_cons_of_ne_nil (hne c (.head _))
    have hx : x ≠ '/' := fun h => hslash _ (.head _) (h ▸ .head _)
    rw [ofComponents_cons, ← Bool.not_eq_true, isAbsolute_iff]
    simpa using hx

theorem parts_text {p : List Char} {place : List (List Char)} (hplace : IsReached (isAbsolute p) place)
    (hne : place ≠ []) :
    root (root p ++ ofComponents place) = root p ∧ parts (root p ++ ofComponents place) = place := by
  have hroot : root (root p ++ ofComponents place) = root p := by
    rw [root_append (isAbsolute_ofComponents (fun _ => hplace.ne_nil) fun _ => hplace.slash_notMem),
      root_root]
  refine ⟨hroot, ?_⟩
  rw [parts, isAbsolute_eq_of_root hroot, walk_components_root,
    components_ofComponents hne fun _ => hplace.slash_notMem, hplace.walk_nil]

theorem normalize_of_ne_nil {p : List Char} (h : parts p ≠ []) :
    normalize p = root p ++ ofComponents (parts p) := by
  rw [normalize_eq, if_neg]
  obtain ⟨c, cs, hparts⟩ := List.exists_cons_of_ne_nil h
  have hc : c ≠ [] := (isReached_parts p).ne_nil (hparts ▸ .head _)
  rw [hparts, ofComponents_cons]
  simp [hc]

theorem filter_components_normalize {p : List Char} (hp : isAbsolute p = true) :
    (components (normalize p)).filter (· ≠ []) = parts p := by
  have hroot : root p ≠ [] := fun h => by simp [root_eq_nil_iff.1 h] at hp
  obtain ⟨n, hn⟩ := components_root_append p (ofComponents (parts p))
  rw [normalize_eq, if_neg (by simp [hroot]), hn, List.filter_append]
  have hempty : (List.replicate n []).filter (· ≠ ([] : List Char)) = [] := by simp
  rw [hempty, List.nil_append]
  by_cases hne : parts p = []
  · rw [hne]
    rfl
  · rw [components_ofComponents hne fun _ => (isReached_parts p).slash_notMem, List.filter_eq_self]
    intro c hc
    simpa using (isReached_parts p).ne_nil hc

theorem absoluteParts_eq {cwd : List Char} (hcwd : isAbsolute cwd = true) (p : List Char) :
    absoluteParts cwd p = walk true (if isAbsolute p then [] else parts cwd) (components p) := by
  rw [absoluteParts, absolute]
  cases hp : isAbsolute p with
  | true =>
    rw [if_pos rfl, filter_components_normalize hp, parts, hp]
    rfl
  | false =>
    have hjoin : isAbsolute (join cwd p) = true := (isAbsolute_eq_of_root (root_join hp)).trans hcwd
    rw [if_neg Bool.false_ne_true, filter_components_normalize hjoin, parts_join hp, hcwd]
    rfl

theorem walk_walk_of_isReached {start : List (List Char)} (hplace : IsReached rooted place)
    (hstart : rooted = true → start = []) (hcs : ∀ c ∈ cs, '/' ∉ c) :
    walk true start (walk rooted place cs) = walk true (walk true start place) cs := by
  cases rooted with
  | true => rw [hstart rfl, (hplace.walk hcs).walk_nil, hplace.walk_nil]
  | false =>
    have hall : ∀ c ∈ place ++ cs, '/' ∉ c := fun c hc =>
      (List.mem_append.1 hc).elim hplace.slash_notMem (hcs c)
    rw [← walk_append, ← walk_walk hall, walk_append, hplace.walk_nil]

theorem absoluteParts_eq_walk_parts {cwd : List Char} (hcwd : isAbsolute cwd = true) (p : List Char) :
    absoluteParts cwd p = walk true (if isAbsolute p then [] else parts cwd) (parts p) := by
  rw [absoluteParts_eq hcwd]
  have hreached := isReached_parts p
  unfold parts at hreached ⊢
  cases hp : isAbsolute p with
  | true =>
    rw [hp] at hreached
    rw [if_pos rfl, hreached.walk_nil]
  | false => rw [walk_walk fun _ => slash_notMem_of_mem_components]

theorem IsReached.isName (hplace : IsReached true place) (hc : c ∈ place) : IsName c := by
  obtain ⟨n, names, rfl, hnames, hn⟩ := hplace
  obtain rfl := hn rfl
  exact hnames c hc

theorem isName_of_mem_absoluteParts {cwd p : List Char} (hcwd : isAbsolute cwd = true)
    (hc : c ∈ absoluteParts cwd p) : IsName c := by
  rw [absoluteParts_eq hcwd] at hc
  refine IsReached.isName (IsReached.walk ?_ fun _ => slash_notMem_of_mem_components) hc
  split_ifs
  · exact isReached_nil
  · exact hcwd ▸ isReached_parts cwd

/-! ## Ways -/

@[simp] theorem shared_nil_left (bs : List (List Char)) : shared [] bs = 0 := by
  cases bs <;> rfl

@[simp] theorem shared_nil_right (as : List (List Char)) : shared as [] = 0 := by
  cases as <;> rfl

theorem shared_append (start as bs : List (List Char)) :
    shared (start ++ as) (start ++ bs) = start.length + shared as bs := by
  induction start with
  | nil => simp
  | cons c start ih =>
    rw [List.cons_append, List.cons_append, shared, if_pos rfl, ih, List.length_cons]
    omega

theorem exists_shared (as bs : List (List Char)) :
    ∃ start as' bs', as = start ++ as' ∧ bs = start ++ bs' ∧ shared as bs = start.length ∧
      shared as' bs' = 0 := by
  induction as generalizing bs with
  | nil => exact ⟨[], [], bs, rfl, rfl, by simp, by simp⟩
  | cons a as ih =>
    cases bs with
    | nil => exact ⟨[], a :: as, [], rfl, rfl, rfl, rfl⟩
    | cons b bs =>
      by_cases hab : a = b
      · obtain ⟨start, as', bs', rfl, rfl, hlength, hzero⟩ := ih bs
        exact ⟨b :: start, as', bs', by rw [hab]; rfl, rfl, by simp [shared, hab, hlength], hzero⟩
      · exact ⟨[], a :: as, b :: bs, rfl, rfl, by simp [shared, hab], by simp [shared, hab]⟩

theorem shared_eq_zero_iff {as bs : List (List Char)} (hbs : bs ≠ []) :
    shared as bs = 0 ↔ as.head? ≠ bs.head? := by
  obtain ⟨b, bs, rfl⟩ := List.exists_cons_of_ne_nil hbs
  cases as with
  | nil => simp
  | cons a as => by_cases hab : a = b <;> simp [shared, hab]

/-- How often a place climbs. -/
def climbs (place : List (List Char)) : Nat :=
  (place.takeWhile (· = up)).length

/-- The names of a place, below those over which it climbs. -/
def names (place : List (List Char)) : List (List Char) :=
  place.dropWhile (· = up)

theorem climbs_append (n : Nat) (h : ∀ c ∈ cs, IsName c) : climbs (List.replicate n up ++ cs) = n := by
  have hcs : cs.takeWhile (· = up) = [] := by
    cases cs with
    | nil => rfl
    | cons c cs => simp [(h c (.head _)).ne_up]
  rw [climbs, List.takeWhile_append_of_pos (by simp), hcs]
  simp

theorem names_append (n : Nat) (h : ∀ c ∈ cs, IsName c) : names (List.replicate n up ++ cs) = cs := by
  rw [names, List.dropWhile_append_of_pos (by simp)]
  cases cs with
  | nil => rfl
  | cons c cs => simp [(h c (.head _)).ne_up]

theorem IsReached.eq_append (h : IsReached rooted place) :
    place = List.replicate (climbs place) up ++ names place ∧ ∀ c ∈ names place, IsName c := by
  obtain ⟨n, names, rfl, hnames, -⟩ := h
  rw [climbs_append n hnames, names_append n hnames]
  exact ⟨rfl, hnames⟩

theorem IsReached.climbs_eq_zero (h : IsReached true place) : climbs place = 0 := by
  obtain ⟨n, names, rfl, hnames, hn⟩ := h
  rw [climbs_append n hnames, hn rfl]

theorem replicate_append_inj {m n : Nat} (hcs : ∀ c ∈ cs, IsName c) (hds : ∀ c ∈ ds, IsName c) :
    List.replicate m up ++ cs = List.replicate n up ++ ds ↔ m = n ∧ cs = ds := by
  refine ⟨fun h => ⟨?_, ?_⟩, fun ⟨hm, hc⟩ => by rw [hm, hc]⟩
  · rw [← climbs_append m hcs, h, climbs_append n hds]
  · rw [← names_append m hcs, h, names_append n hds]

/-- The components of the way from one place to another. -/
def way (source target : List (List Char)) : List (List Char) :=
  List.replicate (source.length - shared source target) up ++ target.drop (shared source target)

theorem slash_notMem_of_mem_way {source target : List (List Char)}
    (htarget : ∀ c ∈ target, IsName c) (hc : c ∈ way source target) : '/' ∉ c := by
  obtain hc | hc := List.mem_append.1 hc
  · rw [List.eq_of_mem_replicate hc]
    decide
  · exact (htarget c (List.mem_of_mem_drop hc)).slash

theorem exists_way (source target : List (List Char)) :
    ∃ start old new, source = start ++ old ∧ target = start ++ new ∧
      shared source target = start.length ∧ way source target = List.replicate old.length up ++ new ∧
      (new ≠ [] → old.head? ≠ new.head?) ∧ (target <+: source ↔ new = []) := by
  obtain ⟨start, old, new, rfl, rfl, hlength, hzero⟩ := exists_shared source target
  refine ⟨start, old, new, rfl, rfl, hlength, ?_, fun hne => (shared_eq_zero_iff hne).1 hzero, ?_⟩
  · rw [way, hlength]
    simp
  · rw [List.prefix_append_right_inj]
    refine ⟨fun ⟨rest, hrest⟩ => ?_, fun h => h ▸ List.nil_prefix⟩
    by_contra hne
    have hhead := (shared_eq_zero_iff hne).1 hzero
    obtain ⟨c, new, rfl⟩ := List.exists_cons_of_ne_nil hne
    exact hhead (by rw [← hrest]; rfl)

theorem walk_way {source target : List (List Char)} (hsource : ∀ c ∈ source, IsName c)
    (htarget : ∀ c ∈ target, IsName c) : walk true source (way source target) = target := by
  obtain ⟨start, old, new, rfl, rfl, -, hway, -, -⟩ := exists_way source target
  rw [hway, walk_append, walk_ups_true hsource, walk_names fun c hc =>
    htarget c (List.mem_append_right _ hc)]
  simp

/-- A place from which one climbs and its names are taken in a directory. -/
theorem walk_place {top : List (List Char)} (htop : ∀ c ∈ top, IsName c) {n : Nat}
    (hcs : ∀ c ∈ cs, IsName c) :
    walk true top (List.replicate n up ++ cs) = top.take (top.length - n) ++ cs := by
  rw [walk_append, walk_ups_true htop, walk_names hcs]

section Climbing

variable {top old new : List (List Char)} {m n : Nat}

theorem shared_of_lt (old : List (List Char)) (hlt : m < n) (hle : n ≤ top.length)
    (hhead : top[top.length - n]? ≠ new.head?) :
    shared (top.take (top.length - m) ++ old) (top.take (top.length - n) ++ new) = top.length - n := by
  have hsplit : top.take (top.length - m) =
      top.take (top.length - n) ++ (top.take (top.length - m)).drop (top.length - n) := by
    conv_lhs => rw [← List.take_append_drop (top.length - n) (top.take (top.length - m))]
    rw [List.take_take, Nat.min_eq_left (by omega)]
  have hzero : shared ((top.take (top.length - m)).drop (top.length - n) ++ old) new = 0 := by
    by_cases hne : new = []
    · rw [hne, shared_nil_right]
    · rw [shared_eq_zero_iff hne, List.head?_append, List.head?_drop,
        List.getElem?_take_of_lt (by omega),
        List.getElem?_eq_getElem (by omega)]
      rwa [List.getElem?_eq_getElem (by omega)] at hhead
  rw [hsplit, List.append_assoc, shared_append, hzero, List.length_take]
  omega

/-- The way from one place in a directory to another leads there also without the directory, if both
climbs as often, or if the second climbs more often to a place that is not in the directory. -/
theorem walk_way_eq_iff (htop : ∀ c ∈ top, IsName c) (hold : ∀ c ∈ old, IsName c)
    (hnew : ∀ c ∈ new, IsName c)
    (happart : ¬ top.take (top.length - n) ++ new <+: top.take (top.length - m) ++ old) :
    walk false (List.replicate m up ++ old)
        (way (top.take (top.length - m) ++ old) (top.take (top.length - n) ++ new)) =
      List.replicate n up ++ new ↔
      m = n ∨ m < n ∧ n ≤ top.length ∧ top[top.length - n]? ≠ new.head? := by
  obtain ⟨start, back, on, hsource, htarget, hlength, hway, hheads, hbefore⟩ :=
    exists_way (top.take (top.length - m) ++ old) (top.take (top.length - n) ++ new)
  have hon : ∀ c ∈ on, IsName c := by
    intro c hc
    have hmem : c ∈ top.take (top.length - n) ++ new := htarget ▸ List.mem_append_right _ hc
    exact (List.mem_append.1 hmem).elim (fun h => htop c (List.mem_of_mem_take h)) (hnew c)
  have hcount : top.length - m + old.length = start.length + back.length := by
    have hlengths := congrArg List.length hsource
    simp only [List.length_append, List.length_take] at hlengths
    omega
  -- where both climb as often, all that they climb to is in common
  have hsame : m = n → top.length - m ≤ start.length := by
    rintro rfl
    rw [← hlength, shared_append, List.length_take]
    omega
  rw [hway, walk_append]
  obtain hback | hback := Nat.lt_or_ge old.length back.length
  · have hclimb : walk false (List.replicate m up ++ old) (List.replicate back.length up) =
        List.replicate (m + (back.length - old.length)) up := by
      obtain ⟨k, hk⟩ := Nat.exists_eq_add_of_lt hback
      rw [hk, Nat.add_assoc, ← List.replicate_append_replicate, walk_append,
        walk_ups_of_le false _ hold Nat.le.refl, Nat.sub_self, List.take_zero, List.append_nil,
        walk_ups_false]
      congr 1
      omega
    rw [hclimb, walk_names hon, replicate_append_inj hon hnew]
    constructor
    · rintro ⟨hn, rfl⟩
      have hstart : start.length = top.length - n := by
        have hlengths := congrArg List.length htarget
        simp only [List.length_append, List.length_take] at hlengths
        omega
      have hhead : back.head? = top[top.length - n]? := by
        have hget := congrArg (·[top.length - n]?) hsource
        rw [List.getElem?_append_left (by rw [List.length_take]; omega),
          List.getElem?_take_of_lt (by omega), List.getElem?_append_right (by omega), hstart,
          Nat.sub_self, ← List.head?_eq_getElem?] at hget
        exact hget.symm
      exact .inr ⟨by omega, by omega, hhead ▸ hheads (mt hbefore.2 happart)⟩
    · rintro (heq | ⟨hlt, hle, hhead⟩)
      · have hstart := hsame heq
        omega
      · have hstart := shared_of_lt old hlt hle hhead
        rw [hlength] at hstart
        have htake : (top.take (top.length - n)).length = start.length := by
          rw [List.length_take]
          omega
        exact ⟨by omega, (List.append_inj_right htarget htake).symm⟩
  · rw [walk_ups_of_le false _ hold hback, walk_names hon, List.append_assoc]
    have hkept : ∀ c ∈ old.take (old.length - back.length) ++ on, IsName c := fun c hc =>
      (List.mem_append.1 hc).elim (fun h => hold c (List.mem_of_mem_take h)) (hon c)
    rw [replicate_append_inj hkept hnew]
    constructor
    · exact fun h => .inl h.1
    · rintro (rfl | ⟨hlt, hle, hhead⟩)
      · refine ⟨rfl, ?_⟩
        have hstart : start = top.take (top.length - m) ++ old.take (old.length - back.length) := by
          have hshort := hsame rfl
          have htake := congrArg (List.take start.length) hsource
          rw [List.take_left, List.take_append, List.length_take,
            List.take_of_length_le (by rw [List.length_take]; omega)] at htake
          rw [← htake]
          congr 2
          omega
        rw [hstart, List.append_assoc] at htarget
        exact (List.append_cancel_left htarget).symm
      · have hstart := shared_of_lt old hlt hle hhead
        rw [hlength] at hstart
        omega

end Climbing

end Debundle.Path
