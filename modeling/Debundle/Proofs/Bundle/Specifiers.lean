import Debundle.Proofs.Bundle.Links

/-!
# Specifiers of files and of directories

Between modules whose names are made of names alone, the specifier that is written for a module leads
back to it, whatever the working directory is (`candidate_specifier?_of_isProper`). A specifier whose
last component is empty, `.` or `..` leads to the index of a directory if it is a single component, if
it ends with a slash, or if it leads above all names (`candidate_directory_iff`).
-/
namespace Debundle

namespace Path

variable {p : List Char} {cs before : List (List Char)} {last : List Char}

/-- A path of names. -/
def IsProper (p : List Char) : Prop :=
  ∀ c ∈ components p, IsName c

theorem ofComponents_components (p : List Char) : ofComponents (components p) = p := by
  rw [components_eq, ofComponents, List.intercalate_splitOn]

theorem components_ne_nil (p : List Char) : components p ≠ [] := by
  rw [components_eq]
  exact List.splitOn_ne_nil _ _

theorem ofComponents_concat (hne : cs ≠ []) (c : List Char) :
    ofComponents (cs ++ [c]) = ofComponents cs ++ '/' :: c := by
  obtain ⟨d, cs, rfl⟩ := List.exists_cons_of_ne_nil hne
  simp [ofComponents_cons]

theorem directory_append_slash {a b : List Char} {c : Char} (ha : a.getLast? = some c) (hc : c ≠ '/')
    (hb : '/' ∉ b) : directory (a ++ '/' :: b) = a := by
  obtain ⟨x, rfl⟩ := List.getLast?_eq_some_iff.1 ha
  have hpos : ∀ d ∈ b.reverse, (decide (d ≠ '/')) = true := fun d hd =>
    decide_eq_true fun h => hb (h ▸ List.mem_reverse.1 hd)
  have hhead : ((x ++ [c] ++ '/' :: b).reverse.dropWhile (· ≠ '/')).reverse = x ++ [c] ++ ['/'] := by
    rw [List.reverse_append, List.reverse_cons, List.append_assoc, List.dropWhile_append_of_pos hpos]
    simp
  rw [directory, hhead]
  simp [dropSlashes, hc]

theorem directory_of_slash_notMem (h : '/' ∉ p) : directory p = [] := by
  have hnone : p.reverse.dropWhile (· ≠ '/') = [] :=
    List.dropWhile_eq_nil_iff.2 fun d hd => decide_eq_true fun heq => h (heq ▸ List.mem_reverse.1 hd)
  rw [directory, hnone]
  rfl

theorem IsProper.exists_directory (h : IsProper p) :
    ∃ cs, (∀ c ∈ cs, IsName c) ∧ directory p = ofComponents cs := by
  obtain hnil | ⟨before, last, hp⟩ := (components p).eq_nil_or_concat'
  · exact absurd hnil (components_ne_nil p)
  have hlast : '/' ∉ last := (h last (by simp [hp])).slash
  refine ⟨before, fun c hc => h c (by simp [hp, hc]), ?_⟩
  rw [← ofComponents_components p, hp]
  obtain rfl | ⟨start, c, rfl⟩ := before.eq_nil_or_concat'
  · simpa [ofComponents, List.intercalate] using directory_of_slash_notMem hlast
  · have hc : IsName c := h c (by simp [hp])
    obtain rfl | ⟨x, l, rfl⟩ := c.eq_nil_or_concat'
    · exact absurd rfl hc.ne_nil
    · rw [ofComponents_concat (by simp)]
      refine directory_append_slash (c := l) ?_ (fun hl => hc.slash (by simp [hl])) hlast
      exact List.getLast?_eq_some_iff.2 ⟨_, (ofComponents_concat_append ..).symm⟩

theorem parts_ofComponents (h : ∀ c ∈ cs, IsName c) :
    root (ofComponents cs) = [] ∧ parts (ofComponents cs) = cs := by
  by_cases hne : cs = []
  · rw [hne]
    exact ⟨rfl, rfl⟩
  · exact parts_text (p := []) ⟨0, cs, rfl, h, nofun⟩ hne

theorem absoluteParts_ofComponents {cwd : List Char} (hcwd : isAbsolute cwd = true)
    (h : ∀ c ∈ cs, IsName c) : absoluteParts cwd (ofComponents cs) = parts cwd ++ cs := by
  obtain ⟨hroot, hparts⟩ := parts_ofComponents h
  rw [absoluteParts_eq_walk_parts hcwd, root_eq_nil_iff.1 hroot, hparts, if_neg Bool.false_ne_true,
    walk_names h]

theorem way_append (top source target : List (List Char)) :
    way (top ++ source) (top ++ target) = way source target := by
  rw [way, way, shared_append, List.length_append, Nat.add_sub_add_left, List.drop_length_add_append]

theorem getLast?_components_eq_up_iff :
    (components p).getLast? = some up ↔ p = up ∨ '/' :: up <:+ p := by
  constructor
  · intro h
    obtain ⟨before, hp⟩ := List.getLast?_eq_some_iff.1 h
    rw [← ofComponents_components p, hp]
    by_cases hne : before = []
    · exact .inl (by rw [hne]; rfl)
    · exact .inr ⟨_, (ofComponents_concat hne up).symm⟩
  · rintro (rfl | ⟨x, rfl⟩)
    · rfl
    · have hup : components up = [up] := rfl
      rw [components_append_slash, hup, List.getLast?_concat]

theorem getLast?_components_eq_nil_iff (hne : p ≠ []) :
    (components p).getLast? = some [] ↔ p.getLast? = some '/' := by
  have hempty : components [] = [[]] := rfl
  constructor
  · intro h
    obtain ⟨before, hp⟩ := List.getLast?_eq_some_iff.1 h
    have hbefore : before ≠ [] := by
      rintro rfl
      exact hne (by rw [← ofComponents_components p, hp]; rfl)
    rw [← ofComponents_components p, hp, ofComponents_concat hbefore, List.getLast?_concat]
  · intro h
    obtain ⟨before, rfl⟩ := List.getLast?_eq_some_iff.1 h
    rw [components_append_slash, hempty, List.getLast?_concat]

/-- A path climbs above all names: it is `.` or ends in `..` once it is normalized. -/
def LeadsAbove (p : List Char) : Prop :=
  isAbsolute p = false ∧ ∃ n, parts p = List.replicate n up

theorem leadsAbove_iff : LeadsAbove p ↔
    normalize p = here ∨ normalize p = up ∨ '/' :: up <:+ normalize p := by
  rw [← getLast?_components_eq_up_iff]
  have hreached := isReached_parts p
  cases hp : isAbsolute p with
  | true =>
    have hname : ∀ c ∈ components (normalize p), c ≠ [] → IsName c := by
      intro c hc hne
      refine (hp ▸ hreached).isName ?_
      rw [← filter_components_normalize hp, List.mem_filter]
      exact ⟨hc, decide_eq_true hne⟩
    refine iff_of_false (fun h => Bool.false_ne_true (h.1.symm.trans hp)) ?_
    rintro (hhere | hup)
    · exact (hname here (by rw [hhere]; exact .head _) (by decide)).ne_here rfl
    · exact (hname up (List.mem_of_getLast? hup) (by decide)).ne_up rfl
  | false =>
    have hcomponents : parts p ≠ [] → components (normalize p) = parts p := by
      intro hne
      rw [normalize_of_ne_nil hne, root_eq_nil_iff.2 hp, List.nil_append,
        components_ofComponents hne fun _ => hreached.slash_notMem]
    obtain ⟨n, names, hparts, hnames, -⟩ := hreached
    obtain rfl | ⟨before, c, rfl⟩ := names.eq_nil_or_concat'
    · rw [List.append_nil] at hparts
      refine iff_of_true ⟨hp, n, hparts⟩ ?_
      cases n with
      | zero => exact .inl (by rw [normalize_eq, root_eq_nil_iff.2 hp, hparts]; rfl)
      | succ n =>
        rw [List.replicate_succ'] at hparts
        exact .inr (by rw [hcomponents (by simp [hparts]), hparts, List.getLast?_concat])
    · have hc : IsName c := hnames c (by simp)
      have hmem : c ∈ parts p := by simp [hparts]
      rw [← List.append_assoc] at hparts
      refine iff_of_false ?_ ?_
      · rintro ⟨-, m, hm⟩
        exact hc.ne_up (List.eq_of_mem_replicate (hm ▸ hmem))
      · rw [hcomponents (List.ne_nil_of_mem hmem), hparts, List.getLast?_concat]
        rintro (hhere | hup)
        · have hlast : parts p = [here] := by
            rw [← hcomponents (List.ne_nil_of_mem hmem), hhere]
            rfl
          exact hc.ne_here (List.mem_singleton.1 (hlast ▸ hmem))
        · exact hc.ne_up (Option.some.inj hup)

end Path

namespace ModuleName

open Path

/-! ## Files -/

theorem stripChars_eq_self {t : List Char} (hscript : ¬ script <:+ t) (hdata : ¬ data <:+ t) :
    stripChars t = t := by
  rw [← List.isSuffixOf_iff_suffix] at hscript hdata
  rw [stripChars, endsIn, if_neg hscript, endsIn, if_neg hdata]

section Proper

variable {f t : String} (hf : IsProper f.toList) (ht : IsProper t.toList)
include hf ht

theorem linksUp_of_isProper (hbare : stripChars t.toList = t.toList) (cwd : List Char) :
    LinksUp cwd f.toList t.toList := by
  obtain ⟨cs, hcs, hdirectory⟩ := hf.exists_directory
  obtain ⟨hroot, hparts⟩ := parts_ofComponents ht
  rw [ofComponents_components] at hroot hparts
  obtain ⟨hroot', hparts'⟩ := parts_ofComponents hcs
  refine ⟨hbare, ?_, by rw [hdirectory, hroot', hroot], .inl ?_⟩
  · rw [normalize_of_ne_nil (hparts ▸ components_ne_nil _), hroot, hparts, List.nil_append,
      ofComponents_components]
  · have hclimbs : ∀ {cs}, (∀ c ∈ cs, IsName c) → climbs cs = 0 := fun h => climbs_append 0 h
    rw [hdirectory, hparts', hparts, hclimbs hcs, hclimbs ht]

theorem exists_trail (hbare : stripChars t.toList = t.toList) :
    ∃ cs, directory f.toList = ofComponents cs ∧ (∀ c ∈ cs, IsName c) ∧
      ∀ cwd : String, isAbsolute cwd.toList = true →
        (NamesDirectory cwd f t ↔ components t.toList <+: cs) ∧
        specifier? cwd f t = some (String.ofList (written (trail cs (components t.toList)))) := by
  obtain ⟨cs, hcs, hdirectory⟩ := hf.exists_directory
  refine ⟨cs, hdirectory, hcs, fun cwd hcwd => ?_⟩
  have hsource := absoluteParts_ofComponents hcwd hcs
  have htarget := absoluteParts_ofComponents hcwd ht
  rw [ofComponents_components] at htarget
  have hne : t.toList ≠ [] := fun h => (ht [] (by simp [h, components, Text.splitOn])).ne_nil rfl
  constructor
  · rw [NamesDirectory, hbare, htarget, hdirectory, hsource, List.prefix_append_right_inj]
  · rw [specifier?_eq hcwd, hbare, if_neg hne, hdirectory, htarget, hsource, trail, trail, way_append]

/-- The specifier of a module that is named by names alone, and not like a directory around the module
that requires it, starts with `./` or `../`, does not depend on the working directory and leads back to
the module. -/
theorem candidate_specifier?_of_isProper (hscript : ¬ script <:+ t.toList)
    (hdata : ¬ data <:+ t.toList)
    (happart : ¬ components t.toList <+: components (directory f.toList)) :
    ∃ s : String, (∀ cwd : String, isAbsolute cwd.toList = true → specifier? cwd f t = some s) ∧
      candidate f s = t ∧ (['.', '/'] <+: s.toList ∨ ['.', '.', '/'] <+: s.toList) := by
  have hbare := stripChars_eq_self hscript hdata
  obtain ⟨cs, hdirectory, hcs, htrail⟩ := exists_trail hf ht hbare
  have hroot : isAbsolute "/".toList = true := rfl
  have hnames : ¬ NamesDirectory "/" f t := by
    rw [(htrail "/" hroot).1]
    intro hprefix
    by_cases hnil : cs = []
    · rw [hnil, List.prefix_nil] at hprefix
      exact components_ne_nil _ hprefix
    · rw [hdirectory, components_ofComponents hnil fun c hc => (hcs c hc).slash] at happart
      exact happart hprefix
  refine ⟨_, fun cwd hcwd => (htrail cwd hcwd).2, ?_, ?_⟩
  · have hlinks := (candidate_specifier? hroot f t).2 _ (htrail "/" hroot).2
    exact (hlinks.2 hnames).2.2 (linksUp_of_isProper hf ht hbare _)
  · rw [String.toList_ofList, written]
    split_ifs with hclimbs
    · exact .inr ((List.isPrefixOf_iff_prefix.1 hclimbs).trans (List.prefix_append ..))
    · exact .inl ⟨_, rfl⟩

end Proper

theorem candidate_specifier?_dotted :
    specifier? "/w/lib" "lib/a.b/main" "lib/..c/d.jsx" = some "../..c/d.jsx.js" ∧
      candidate "lib/a.b/main" "../..c/d.jsx.js" = "lib/..c/d.jsx" := by
  have hproper : ∀ {p : String}, (components p.toList).all (fun c => c ≠ [] && c ≠ here && c ≠ up) =
      true → IsProper p.toList := by
    intro p h c hc
    have hname := List.all_eq_true.1 h c hc
    simp only [ne_eq, decide_not, Bool.and_eq_true, Bool.not_eq_true', decide_eq_false_iff_not]
      at hname
    exact ⟨hname.1.1, hname.1.2, hname.2, slash_notMem_of_mem_components hc⟩
  have hwritten : specifier? "/w/lib" "lib/a.b/main" "lib/..c/d.jsx" = some "../..c/d.jsx.js" := by
    decide +kernel
  obtain ⟨s, hs, hcandidate, -⟩ := candidate_specifier?_of_isProper (f := "lib/a.b/main")
    (t := "lib/..c/d.jsx") (hproper (by decide)) (hproper (by decide)) (by decide) (by decide)
    (by decide)
  cases (hs "/w/lib" rfl).symm.trans hwritten
  exact ⟨hwritten, hcandidate⟩

/-! ## Directories -/

/-- Where a specifier leads from a module. -/
def arrival (parent specifier : List Char) : List Char :=
  normalize (join (directory parent) specifier)

/-- A specifier whose last component is empty, `.` or `..`. -/
def EndsInDirectory (specifier : List Char) : Prop :=
  ∃ c ∈ [[], here, up], (components specifier).getLast? = some c

/-- A specifier is taken for that of a directory: it is a single component, it ends with a slash, or it
leads above all names. -/
def IsTaken (parent specifier : List Char) : Prop :=
  (components specifier).length = 1 ∨ (components specifier).getLast? = some [] ∨
    LeadsAbove (join (directory parent) specifier)

/-- The index of a directory. -/
def indexIn (d : List Char) : List Char :=
  if d = here then index else d ++ '/' :: index

variable {p s : List Char}

theorem denotesDirectory_iff (hs : isRelative s = true) (hdir : EndsInDirectory s) :
    denotesDirectory s (arrival p s) = true ↔ IsTaken p s := by
  have hne : s ≠ [] := by
    rintro rfl
    cases hs
  have hsingle : (components s).length = 1 ↔ s = here ∨ s = up := by
    constructor
    · intro hlength
      obtain ⟨c, hc⟩ := List.length_eq_one_iff.1 hlength
      obtain rfl : s = c := by
        rw [← ofComponents_components s, hc]
        simp [ofComponents, List.intercalate]
      obtain ⟨d, hd, hlast⟩ := hdir
      obtain rfl : s = d := by simpa [hc] using hlast
      simpa [hne] using hd
    · rintro (rfl | rfl) <;> rfl
  rw [IsTaken, hsingle, getLast?_components_eq_nil_iff hne, leadsAbove_iff, ← arrival]
  simp only [denotesDirectory, endsIn, Bool.or_eq_true, decide_eq_true_eq, List.isSuffixOf_iff_suffix,
    or_assoc]

theorem stripChars_append_index (x : List Char) : stripChars (x ++ index) = x ++ index := by
  have hlast : ∀ {e : List Char}, e <:+ x ++ index → e ≠ [] → e.getLast? = some 'x' := by
    rintro e ⟨y, hy⟩ hne
    have hx : (y ++ e).getLast? = some 'x' := by
      rw [hy]
      simp [index]
    rwa [List.getLast?_append_of_ne_nil _ hne] at hx
  refine stripChars_eq_self (fun h => ?_) fun h => ?_
  · exact absurd (hlast h (by decide)) (by decide)
  · exact absurd (hlast h (by decide)) (by decide)

theorem length_stripChars_le (x : List Char) : (stripChars x).length ≤ x.length := by
  by_cases h : stripChars x = x
  · rw [h]
  · obtain ⟨extension, heq, -⟩ := exists_extension h
    conv_rhs => rw [heq]
    simp

theorem candidateChars_eq (hs : isRelative s = true) : candidateChars p s =
    stripChars (if denotesDirectory s (arrival p s) then join (arrival p s) index else arrival p s) := by
  rw [candidateChars, if_pos hs]
  rfl

theorem candidateChars_of_isTaken (hs : isRelative s = true) (hdir : EndsInDirectory s)
    (h : IsTaken p s) : candidateChars p s = join (arrival p s) index := by
  have hjoin : ∃ x, join (arrival p s) index = x ++ index := by
    unfold join
    rw [if_neg (by decide)]
    split_ifs
    · exact ⟨_, rfl⟩
    · exact ⟨arrival p s ++ ['/'], by simp⟩
  obtain ⟨x, hx⟩ := hjoin
  rw [candidateChars_eq hs, if_pos ((denotesDirectory_iff hs hdir).2 h), hx, stripChars_append_index]

theorem candidateChars_of_not_isTaken (hs : isRelative s = true) (hdir : EndsInDirectory s)
    (h : ¬ IsTaken p s) : candidateChars p s = stripChars (arrival p s) := by
  rw [candidateChars_eq hs, if_neg (mt (denotesDirectory_iff hs hdir).1 h)]

theorem length_lt_join_index (d : List Char) : (stripChars d).length < (join d index).length := by
  have hle := length_stripChars_le d
  unfold join
  rw [if_neg (by decide)]
  split_ifs <;> simp [index] <;> omega

theorem join_index_eq_iff (d : List Char) (hd : d ≠ []) :
    join d index = indexIn d ↔ d ≠ here ∧ d.getLast? ≠ some '/' := by
  unfold join indexIn
  rw [if_neg (by decide)]
  by_cases hhere : d = here
  · subst hhere
    decide
  · by_cases hlast : d.getLast? = some '/'
    · simp [hhere, hlast]
    · simp [hhere, hlast, hd]

theorem arrival_ne_nil (p s : List Char) : arrival p s ≠ [] := by
  rw [arrival, normalize_eq]
  split_ifs with h
  · decide
  · exact h

/-- A specifier of a directory that is taken for one leads to the path `index` in the directory, which
is the name of its index unless the directory is `.` or the root. Any other one leads to a file without
its extension. So two specifiers of one directory lead to one name only if both are taken for one, or
none of them is. -/
theorem candidate_directory_iff (p s : String) (hs : isRelative s.toList = true)
    (hdir : EndsInDirectory s.toList) :
    (candidate p s = String.ofList (indexIn (arrival p.toList s.toList)) ↔
      IsTaken p.toList s.toList ∧ arrival p.toList s.toList ≠ here ∧
        (arrival p.toList s.toList).getLast? ≠ some '/') ∧
      (IsTaken p.toList s.toList →
        candidate p s = String.ofList (join (arrival p.toList s.toList) index)) ∧
      (¬ IsTaken p.toList s.toList →
        candidate p s = String.ofList (stripChars (arrival p.toList s.toList))) ∧
      ∀ s' : String, isRelative s'.toList = true → EndsInDirectory s'.toList →
        arrival p.toList s'.toList = arrival p.toList s.toList →
        (candidate p s' = candidate p s ↔ (IsTaken p.toList s'.toList ↔ IsTaken p.toList s.toList)) := by
  simp only [candidate, String.ofList_inj]
  refine ⟨?_, candidateChars_of_isTaken hs hdir, candidateChars_of_not_isTaken hs hdir, ?_⟩
  · by_cases h : IsTaken p.toList s.toList
    · rw [candidateChars_of_isTaken hs hdir h, join_index_eq_iff _ (arrival_ne_nil _ _), and_iff_right h]
    · rw [candidateChars_of_not_isTaken hs hdir h]
      refine iff_of_false (fun heq => ?_) fun h' => h h'.1
      -- only a path that leads above all names is `.`
      have hhere : arrival p.toList s.toList ≠ here := fun hhere =>
        h (.inr (.inr (leadsAbove_iff.2 (.inl hhere))))
      have hlength := length_stripChars_le (arrival p.toList s.toList)
      rw [heq, indexIn, if_neg hhere, List.length_append, List.length_cons] at hlength
      omega
  · intro s' hs' hdir' harrival
    have hlength := (length_lt_join_index (arrival p.toList s.toList)).ne
    by_cases h : IsTaken p.toList s.toList <;> by_cases h' : IsTaken p.toList s'.toList
    · rw [candidateChars_of_isTaken hs hdir h, candidateChars_of_isTaken hs' hdir' h', harrival]
      exact iff_of_true rfl (iff_of_true h' h)
    · rw [candidateChars_of_isTaken hs hdir h, candidateChars_of_not_isTaken hs' hdir' h', harrival]
      exact iff_of_false (fun heq => hlength (congrArg _ heq)) fun hiff => h' (hiff.2 h)
    · rw [candidateChars_of_not_isTaken hs hdir h, candidateChars_of_isTaken hs' hdir' h', harrival]
      exact iff_of_false (fun heq => hlength (congrArg _ heq.symm)) fun hiff => h (hiff.1 h')
    · rw [candidateChars_of_not_isTaken hs hdir h, candidateChars_of_not_isTaken hs' hdir' h', harrival]
      exact iff_of_true rfl (iff_of_false h' h)

theorem candidate_directory_parent :
    candidate "lib/a/b" ".." = "lib/index" ∧ candidate "lib/a/b" ".././" = candidate "lib/a/b" ".." := by
  have hdir : EndsInDirectory "..".toList := ⟨up, by decide, by decide⟩
  have hdir' : EndsInDirectory ".././".toList := ⟨[], by decide, by decide⟩
  have htaken : IsTaken "lib/a/b".toList "..".toList := .inl (by decide)
  have htaken' : IsTaken "lib/a/b".toList ".././".toList := .inr (.inl (by decide))
  obtain ⟨hindex, -, -, hsame⟩ := candidate_directory_iff "lib/a/b" ".." rfl hdir
  refine ⟨(hindex.2 ⟨htaken, by decide, by decide⟩).trans (by decide), ?_⟩
  exact (hsame ".././" rfl hdir' (by decide)).2 (iff_of_true htaken' htaken)

/-- Two parents up from a deep module, the directory is taken for a file. With a slash it is not. -/
theorem candidate_grandparent :
    isRelative "../..".toList = true ∧ EndsInDirectory "../..".toList ∧
      normalize "a/b/c/d".toList = "a/b/c/d".toList ∧
      indexIn (arrival "a/b/c/d".toList "../..".toList) = "a/index".toList ∧
      candidate "a/b/c/d" "../.." = "a" ∧
      arrival "a/b/c/d".toList "../../".toList = arrival "a/b/c/d".toList "../..".toList ∧
      candidate "a/b/c/d" "../../" = "a/index" := by
  refine ⟨rfl, ⟨up, by decide, by decide⟩, ?_⟩
  decide

end ModuleName

end Debundle
