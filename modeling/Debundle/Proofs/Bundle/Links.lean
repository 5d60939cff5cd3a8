import Debundle.Proofs.Reading.Apply
import Debundle.Proofs.Bundle.Partition
import Debundle.Proofs.Text.Paths

/-!
# Specifiers that lead to their modules

The specifier that is written for a module leads to its file as long as the file is not named like
the directory of the module that requires it, or like one above. It leads to the very name of the
module only under some more conditions (`candidate_specifier?`).
-/
namespace Debundle

namespace Path

theorem ofComponents_concat_append (cs : List (List Char)) (c x : List Char) :
    ofComponents (cs ++ [c]) ++ x = ofComponents (cs ++ [c ++ x]) := by
  cases cs with
  | nil => simp [ofComponents, List.intercalate]
  | cons d cs => simp [ofComponents_cons]

theorem components_append_of_slash_notMem (p : List Char) {e : List Char} (he : '/' ∉ e) :
    ∃ before last, components p = before ++ [last] ∧ components (p ++ e) = before ++ [last ++ e] := by
  obtain hp | ⟨before, last, hp⟩ := (components p).eq_nil_or_concat'
  · rw [components_eq] at hp
    exact absurd hp (List.splitOn_ne_nil _ _)
  · have htext : p = ofComponents (before ++ [last]) := by
      rw [← hp, components_eq, ofComponents, List.intercalate_splitOn]
    have hslash : ∀ c ∈ before ++ [last], '/' ∉ c := fun c hc =>
      slash_notMem_of_mem_components (hp ▸ hc)
    refine ⟨before, last, hp, ?_⟩
    rw [htext, ofComponents_concat_append, components_ofComponents (by simp)]
    intro c hc
    obtain hc | hc := List.mem_append.1 hc
    · exact hslash c (List.mem_append_left _ hc)
    · have hlast := hslash last (by simp)
      rw [List.mem_singleton.1 hc, List.mem_append]
      exact fun h => h.elim hlast he

end Path

namespace ModuleName

open Path

/-! ## Extensions -/

theorem stripChars_append_script (x : List Char) : stripChars (x ++ script) = x := by
  have hends : endsIn script (x ++ script) = true :=
    List.isSuffixOf_iff_suffix.2 (List.suffix_append _ _)
  have hscript : script = ['.', 'j', 's'] := rfl
  rw [stripChars, if_pos hends, hscript]
  simp [List.dropLast_append_of_ne_nil]

theorem exists_extension {t : List Char} (h : stripChars t ≠ t) :
    ∃ extension, t = stripChars t ++ extension ∧ (extension = script ∨ extension = data) := by
  by_cases hscript : endsIn script t = true
  · obtain ⟨x, rfl⟩ := List.isSuffixOf_iff_suffix.1 hscript
    exact ⟨script, by rw [stripChars_append_script], .inl rfl⟩
  · rw [stripChars, if_neg hscript] at h ⊢
    split_ifs at h ⊢ with hdata
    · obtain ⟨x, rfl⟩ := List.isSuffixOf_iff_suffix.1 hdata
      exact ⟨data, by simp, .inr rfl⟩
    · exact absurd rfl h

variable {cwd : List Char}

theorem absoluteParts_stripChars_ne (hcwd : isAbsolute cwd = true) {t : List Char}
    (h : stripChars t ≠ t) : absoluteParts cwd (stripChars t) ≠ absoluteParts cwd t := by
  obtain ⟨extension, ht, hextension⟩ := exists_extension h
  generalize stripChars t = u at ht
  subst ht
  have hslash : '/' ∉ extension := by
    obtain rfl | rfl := hextension <;> decide
  have hlong : 3 ≤ extension.length := by
    obtain rfl | rfl := hextension <;> decide
  obtain ⟨before, last, hu, hue⟩ := components_append_of_slash_notMem u hslash
  have hlast : '/' ∉ last := slash_notMem_of_mem_components (p := u) (by simp [hu])
  have hname : IsName (last ++ extension) := by
    have hlength : 3 ≤ (last ++ extension).length := by simp; omega
    refine ⟨?_, ?_, ?_, fun h => (List.mem_append.1 h).elim hlast hslash⟩ <;>
      exact fun h => by simp [h, here, up] at hlength
  have habsolute : isAbsolute (u ++ extension) = isAbsolute u :=
    isAbsolute_eq_of_root (root_append (by obtain rfl | rfl := hextension <;> rfl))
  have hstart : IsReached true (if isAbsolute u then [] else parts cwd) := by
    split_ifs
    · exact isReached_nil
    · exact hcwd ▸ isReached_parts cwd
  have hbefore := hstart.walk fun c hc =>
    slash_notMem_of_mem_components (p := u) (hu ▸ List.mem_append_left [last] hc)
  rw [absoluteParts_eq hcwd, absoluteParts_eq hcwd, habsolute, hu, hue, walk_append, walk_append,
    walk_name hname]
  intro heq
  have hlengths := congrArg List.length heq
  rw [List.length_append, List.length_singleton] at hlengths
  obtain ⟨-, hstep⟩ | ⟨-, hstep⟩ | ⟨-, _, _, -, -, hplace, hstep⟩ := step_cases hbefore hlast
  · rw [hstep] at hlengths
    omega
  · rw [hstep] at heq
    have hempty : extension = [] := by simpa using List.append_cancel_left heq
    rw [hempty] at hlong
    exact absurd hlong (by decide)
  · rw [hstep, hplace] at hlengths
    simp at hlengths
    omega

/-! ## Written specifiers -/

/-- The components of a specifier: the way, or `.` where there is none. -/
def trail (source target : List (List Char)) : List (List Char) :=
  if way source target = [] then [here] else way source target

/-- The text of a specifier that follows a trail. -/
def written (trail : List (List Char)) : List Char :=
  (if (up ++ ['/']).isPrefixOf (ofComponents trail) then ofComponents trail
    else '.' :: '/' :: ofComponents trail) ++ script

theorem absoluteParts_start (hcwd : isAbsolute cwd = true) (p : List Char) :
    absoluteParts cwd (if p = [] then here else p) = absoluteParts cwd p := by
  split_ifs with hp
  · have hhere : components here = [here] := rfl
    have hempty : components [] = [[]] := rfl
    rw [hp, absoluteParts_eq hcwd, absoluteParts_eq hcwd, hhere, hempty, walk_here, walk_empty]
    rfl
  · rfl

theorem specifier?_eq {cwd : String} (hcwd : isAbsolute cwd.toList = true) (f t : String) :
    specifier? cwd f t = if stripChars t.toList = [] then none
      else some (String.ofList (written (trail (absoluteParts cwd.toList (directory f.toList))
        (absoluteParts cwd.toList (stripChars t.toList))))) := by
  rw [specifier?, relative?, absoluteParts_start hcwd]
  split_ifs with ht
  · rfl
  · have htrail : ∀ parts : List (List Char),
        (if parts = [] then here else ofComponents parts) =
          ofComponents (if parts = [] then [here] else parts) := fun parts => by
      split_ifs <;> rfl
    rw [Option.map_some, htrail]
    rfl

theorem walk_components_written {rooted : Bool} {place before : List (List Char)} {last : List Char}
    (hbefore : ∀ c ∈ before, '/' ∉ c) (hlast : '/' ∉ last) :
    walk rooted place (components (written (before ++ [last]))) =
      walk rooted place before ++ [last ++ script] := by
  have hslash : '/' ∉ last ++ script := fun h => (List.mem_append.1 h).elim hlast (by decide)
  have hname : IsName (last ++ script) := by
    have hlength : 3 ≤ (last ++ script).length := by
      rw [List.length_append]
      exact Nat.le_add_left 3 _
    refine ⟨?_, ?_, ?_, hslash⟩ <;> exact fun h => by simp [h, here, up] at hlength
  have hall : ∀ c ∈ before ++ [last ++ script], '/' ∉ c := fun c hc =>
    (List.mem_append.1 hc).elim (hbefore c) fun h => List.mem_singleton.1 h ▸ hslash
  have hcomponents : walk rooted place (components (ofComponents (before ++ [last ++ script]))) =
      walk rooted place before ++ [last ++ script] := by
    rw [components_ofComponents (by simp) hall, walk_append, walk_name hname]
  rw [written]
  split_ifs
  · rw [ofComponents_concat_append, hcomponents]
  · have hdot : ∀ x, '.' :: '/' :: x = here ++ '/' :: x := fun x => rfl
    have hhere : components here = [here] := rfl
    rw [hdot, List.append_assoc, List.cons_append, ofComponents_concat_append,
      components_append_slash, hhere, walk_append, walk_here, hcomponents]

theorem denotesDirectory_append_script (x y : List Char) :
    denotesDirectory (x ++ script) (y ++ script) = false := by
  have hlast : ∀ x, (x ++ script).getLast? = some 's' := fun x => by simp [script]
  have hne : ∀ x p, p.getLast? ≠ some 's' → x ++ script ≠ p := by
    rintro x _ hp rfl
    exact hp (hlast x)
  have hends : endsIn ('/' :: up) (y ++ script) = false := by
    rw [← Bool.not_eq_true, endsIn, List.isSuffixOf_iff_suffix]
    rintro ⟨z, hz⟩
    exact hne y _ (by simp [up]) hz.symm
  simp [denotesDirectory, hlast, hends, hne _ here (by decide), hne _ up (by decide)]

theorem candidateChars_written (f : List Char) {before : List (List Char)} {last : List Char}
    (hbefore : ∀ c ∈ before, '/' ∉ c) (hlast : '/' ∉ last) :
    candidateChars f (written (before ++ [last])) = root (directory f) ++
      ofComponents (walk (isAbsolute (directory f)) (parts (directory f)) before ++ [last]) := by
  have hdot : ∃ rest, written (before ++ [last]) = '.' :: rest := by
    unfold written
    split_ifs with hclimbs
    · obtain ⟨rest, hrest⟩ := List.isPrefixOf_iff_prefix.1 hclimbs
      exact ⟨_, by rw [← hrest]; rfl⟩
    · exact ⟨_, rfl⟩
  obtain ⟨rest, hrest⟩ := hdot
  have hrelative : isRelative (written (before ++ [last])) = true := by rw [hrest]; rfl
  have habsolute : isAbsolute (written (before ++ [last])) = false := by rw [hrest]; rfl
  have hnormal : normalize (join (directory f) (written (before ++ [last]))) =
      root (directory f) ++ ofComponents
        (walk (isAbsolute (directory f)) (parts (directory f)) before ++ [last]) ++ script := by
    have hne : ∀ cs : List (List Char), ofComponents (cs ++ [last ++ script]) ≠ [] := fun cs h => by
      rw [← ofComponents_concat_append] at h
      exact absurd (List.append_eq_nil_iff.1 h).2 (by decide)
    rw [normalize_eq, parts_join habsolute, walk_components_written hbefore hlast, root_join habsolute,
      if_neg (by simp [hne]), List.append_assoc, ofComponents_concat_append]
  rw [candidateChars, if_pos hrelative, hnormal]
  dsimp only
  rw [written, denotesDirectory_append_script, if_neg Bool.false_ne_true, stripChars_append_script]

/-! ## Names that are found again -/

/-- The conditions under which the specifier of a file leads to its name `t` from that of a module `f`,
and not to another name of the file. Above the working directory, the name has to climb as often as the
other one, or more often, and then by names that are not those of the working directory. -/
structure LinksUp (cwd f t : List Char) : Prop where
  bare : stripChars t = t
  normal : normalize t = t
  root_eq : root (directory f) = root t
  climbs : climbs (parts (directory f)) = climbs (parts t) ∨
    climbs (parts (directory f)) < climbs (parts t) ∧ climbs (parts t) ≤ (parts cwd).length ∧
      (parts cwd)[(parts cwd).length - climbs (parts t)]? ≠ (names (parts t)).head?

/-- Where the specifier of a directory leads, if it is the one that holds the module `f` or one above:
its last component is taken for a file without its extension. -/
def dotted (cwd f t : List Char) : List Char :=
  let back := (absoluteParts cwd (directory f)).length - (absoluteParts cwd (stripChars t)).length
  root (directory f) ++ ofComponents (walk (isAbsolute (directory f)) (parts (directory f))
    (List.replicate (back - 1) up) ++ [if back = 0 then here else up])

variable {f t : List Char}

theorem candidateChars_of_isPrefix
    (h : absoluteParts cwd (stripChars t) <+: absoluteParts cwd (directory f)) :
    candidateChars f (written (trail (absoluteParts cwd (directory f))
      (absoluteParts cwd (stripChars t)))) = dotted cwd f t := by
  obtain ⟨start, old, new, hsource, htarget, -, hway, -, hbefore⟩ :=
    exists_way (absoluteParts cwd (directory f)) (absoluteParts cwd (stripChars t))
  obtain rfl := hbefore.1 h
  rw [List.append_nil] at hway htarget
  have hback : (absoluteParts cwd (directory f)).length -
      (absoluteParts cwd (stripChars t)).length = old.length := by
    rw [hsource, htarget]
    simp
  have htrail : trail (absoluteParts cwd (directory f)) (absoluteParts cwd (stripChars t)) =
      List.replicate (old.length - 1) up ++ [if old.length = 0 then here else up] := by
    rw [trail, hway]
    cases old with
    | nil => rfl
    | cons c old => simp [List.replicate_succ']
  rw [htrail, candidateChars_written, dotted, hback]
  · intro c hc
    rw [List.eq_of_mem_replicate hc]
    decide
  · split_ifs <;> decide

section

variable (hcwd : isAbsolute cwd = true)
  (h : ¬ absoluteParts cwd (stripChars t) <+: absoluteParts cwd (directory f))
include hcwd h

theorem candidateChars_of_not_isPrefix :
    ∃ place ≠ [], IsReached (isAbsolute (directory f)) place ∧
      place = walk (isAbsolute (directory f)) (parts (directory f))
        (way (absoluteParts cwd (directory f)) (absoluteParts cwd (stripChars t))) ∧
      candidateChars f (written (trail (absoluteParts cwd (directory f))
        (absoluteParts cwd (stripChars t)))) = root (directory f) ++ ofComponents place := by
  obtain ⟨start, old, new, hsource, htarget, -, hway, -, hbefore⟩ :=
    exists_way (absoluteParts cwd (directory f)) (absoluteParts cwd (stripChars t))
  obtain rfl | ⟨before, last, rfl⟩ := new.eq_nil_or_concat'
  · exact absurd (hbefore.2 rfl) h
  have hnames : ∀ c ∈ before ++ [last], IsName c := fun c hc =>
    isName_of_mem_absoluteParts hcwd (htarget ▸ List.mem_append_right _ hc)
  have hlast : IsName last := hnames last (by simp)
  have hslash : ∀ c ∈ List.replicate old.length up ++ before, '/' ∉ c := fun c hc =>
    (List.mem_append.1 hc).elim (fun h => List.eq_of_mem_replicate h ▸ by decide)
      fun h => (hnames c (List.mem_append_left _ h)).slash
  rw [← List.append_assoc] at hway
  have htrail : trail (absoluteParts cwd (directory f)) (absoluteParts cwd (stripChars t)) =
      List.replicate old.length up ++ before ++ [last] := by
    rw [trail, hway, if_neg (by simp)]
  have hwalk : walk (isAbsolute (directory f)) (parts (directory f))
      (List.replicate old.length up ++ before ++ [last]) =
        walk (isAbsolute (directory f)) (parts (directory f))
          (List.replicate old.length up ++ before) ++ [last] := by
    rw [walk_append, walk_name hlast]
  refine ⟨_, ?_, ?_, by rw [hway, hwalk], by rw [htrail, candidateChars_written f hslash hlast.slash]⟩
  · simp
  · rw [← hwalk]
    refine (isReached_parts _).walk fun c hc => ?_
    exact (List.mem_append.1 hc).elim (hslash c) fun h => List.mem_singleton.1 h ▸ hlast.slash

theorem absoluteParts_candidateChars :
    absoluteParts cwd (candidateChars f (written (trail (absoluteParts cwd (directory f))
      (absoluteParts cwd (stripChars t))))) = absoluteParts cwd (stripChars t) := by
  obtain ⟨place, hne, hplace, hwalk, heq⟩ := candidateChars_of_not_isPrefix hcwd h
  obtain ⟨hroot, hparts⟩ := parts_text hplace hne
  have hsource := absoluteParts_eq_walk_parts hcwd (directory f)
  have hnames : ∀ c ∈ absoluteParts cwd (stripChars t), IsName c := fun c =>
    isName_of_mem_absoluteParts hcwd
  rw [heq, absoluteParts_eq_walk_parts hcwd, hparts, isAbsolute_eq_of_root hroot, hwalk,
    walk_walk_of_isReached (isReached_parts _) (fun habsolute => if_pos habsolute)
      (fun c => slash_notMem_of_mem_way hnames), ← hsource,
      walk_way (fun c => isName_of_mem_absoluteParts hcwd) hnames]

theorem candidateChars_eq_iff :
    candidateChars f (written (trail (absoluteParts cwd (directory f))
      (absoluteParts cwd (stripChars t)))) = t ↔ LinksUp cwd f t := by
  obtain ⟨place, hne, hplace, hwalk, heq⟩ := candidateChars_of_not_isPrefix hcwd h
  obtain ⟨hroot, hparts⟩ := parts_text hplace hne
  -- once the names are bare and have one root, they differ at most in how they climb
  have hclimbs : stripChars t = t → root (directory f) = root t →
      (place = parts t ↔ climbs (parts (directory f)) = climbs (parts t) ∨
        climbs (parts (directory f)) < climbs (parts t) ∧ climbs (parts t) ≤ (parts cwd).length ∧
        (parts cwd)[(parts cwd).length - climbs (parts t)]? ≠ (names (parts t)).head?) := by
    intro hbare hroots
    have habsolute := isAbsolute_eq_of_root hroots
    have hold := isReached_parts (directory f)
    have hnew := isReached_parts t
    rw [hbare] at h hwalk
    rw [hwalk]
    cases hrooted : isAbsolute t with
    | true =>
      rw [hrooted] at hnew habsolute
      rw [habsolute] at hold
      rw [absoluteParts_eq_walk_parts hcwd, absoluteParts_eq_walk_parts hcwd, habsolute, hrooted,
        if_pos rfl, hold.walk_nil, hnew.walk_nil, hold.climbs_eq_zero, hnew.climbs_eq_zero]
      exact iff_of_true (walk_way (fun _ => hold.isName) fun _ => hnew.isName) (.inl rfl)
    | false =>
      have htop : ∀ c ∈ parts cwd, IsName c := fun c => (hcwd ▸ isReached_parts cwd).isName
      have hplaces : ∀ p, isAbsolute p = false → absoluteParts cwd p =
          (parts cwd).take ((parts cwd).length - climbs (parts p)) ++ names (parts p) := by
        intro p hp
        obtain ⟨heq, hnames⟩ := (isReached_parts p).eq_append
        rw [absoluteParts_eq_walk_parts hcwd, hp, if_neg Bool.false_ne_true, heq,
          walk_place htop hnames, ← heq]
      rw [hrooted] at habsolute
      rw [hplaces t hrooted, hplaces _ habsolute] at h ⊢
      have hiff := walk_way_eq_iff htop hold.eq_append.2 hnew.eq_append.2 h
      rwa [← hold.eq_append.1, ← hnew.eq_append.1, ← habsolute] at hiff
  constructor
  · intro ht
    have hbare : stripChars t = t := by
      by_contra hbare
      refine absoluteParts_stripChars_ne hcwd hbare ?_
      rw [← absoluteParts_candidateChars hcwd h, ht]
    rw [heq] at ht
    rw [ht] at hroot hparts
    refine ⟨hbare, ?_, hroot.symm, (hclimbs hbare hroot.symm).1 hparts.symm⟩
    rw [normalize_of_ne_nil (hparts ▸ hne), hroot, hparts, ht]
  · intro ht
    have hplace' := (hclimbs ht.bare ht.root_eq).2 ht.climbs
    rw [heq, hplace', ht.root_eq, ← normalize_of_ne_nil (hplace' ▸ hne), ht.normal]

end

/-- A module is named like the directory of another one, or like a directory above it. -/
def NamesDirectory (cwd f t : String) : Prop :=
  absoluteParts cwd.toList (stripChars t.toList) <+: absoluteParts cwd.toList (directory f.toList)

/-- There is a specifier for every module that has a name. If the name is not that of a directory, the
specifier leads to the file, and to the name of the module if `LinksUp` holds. Else it leads to a name
that ends in a dot. -/
theorem candidate_specifier? {cwd : String} (hcwd : isAbsolute cwd.toList = true) (f t : String) :
    (specifier? cwd f t = none ↔ stripExtension t = "") ∧
      ∀ new, specifier? cwd f t = some new →
        (NamesDirectory cwd f t → candidate f new = String.ofList (dotted cwd.toList f.toList t.toList)) ∧
        (¬ NamesDirectory cwd f t →
          absoluteParts cwd.toList (candidate f new).toList =
            absoluteParts cwd.toList (stripExtension t).toList ∧
          (candidate f new = t ↔ LinksUp cwd.toList f.toList t.toList)) := by
  have hempty : stripExtension t = "" ↔ stripChars t.toList = [] := by
    rw [stripExtension, String.ofList_eq_empty_iff]
  rw [specifier?_eq hcwd, hempty]
  by_cases hname : stripChars t.toList = []
  · rw [if_pos hname]
    exact ⟨iff_of_true rfl hname, nofun⟩
  rw [if_neg hname]
  refine ⟨iff_of_false nofun hname, fun new hnew => ?_⟩
  obtain rfl := Option.some.inj hnew
  rw [candidate, String.toList_ofList, String.toList_ofList, stripExtension, String.toList_ofList]
  refine ⟨fun h => ?_, fun h => ⟨absoluteParts_candidateChars hcwd h, ?_⟩⟩
  · rw [candidateChars_of_isPrefix h]
  · rw [← candidateChars_eq_iff hcwd h, ← String.toList_inj, String.toList_ofList]

end ModuleName

/-! ## Links of extracted modules -/

theorem Ordered.get?_append {α β : Type} [DecidableEq α] (key : α) (xs ys : List (α × β)) :
    get? key (xs ++ ys) = (get? key xs).or (get? key ys) := by
  induction xs with
  | nil => rfl
  | cons x xs ih => by_cases hx : x.1 = key <;> simp [get?, hx, ih]

namespace Source

/-- An edge with the name of its target. -/
def named? (table : NameTable) (edge : Edge) : Option (String × String) :=
  match edge.target with
  | .ok (some target) => (table.get? target).map (edge.specifier, ·)
  | _ => none

theorem targets_eq {file : Option String} {table : NameTable} {name : String} {line : Option Nat}
    {edges : List Edge} {requires : List (String × String)}
    (h : (targets file table name line edges).outcome = .ok requires) :
    requires = edges.filterMap (named? table) := by
  induction edges generalizing requires with
  | nil =>
    cases h
    rfl
  | cons edge edges ih =>
    rw [targets] at h
    split at h
    · cases h
    · rename_i hnone
      have hnamed : named? table edge = none := by rw [named?, hnone]
      obtain ⟨_, -, h⟩ := Logged.bind_eq_ok h
      rw [List.filterMap_cons_none hnamed, ih h]
    · rename_i target htarget
      split at h
      · cases h
      · rename_i targetName hname
        have hnamed : named? table edge = some (edge.specifier, targetName) := by
          simp only [named?, htarget, hname, Option.map_some]
        obtain ⟨others, hothers, h⟩ := Logged.bind_eq_ok h
        cases h
        rw [List.filterMap_cons_some hnamed, ih hothers]

variable {file : Option String} {table : NameTable} {s : Source} {id : String} {r : ModuleRecord}
variable {before after : List Edge} {edge : Edge} {target t : String}

theorem ownTarget?_record (hr : (s.record file table id).outcome = .ok r)
    (hedges : s.edges = before ++ edge :: after) (htarget : edge.target = .ok (some target))
    (hlast : ∀ e ∈ after, e.specifier = edge.specifier → e.target = .ok none)
    (ht : table.get? target = some t) (hown : ModuleName.classify t = .own) :
    r.ownTarget? edge.specifier = some t := by
  have hrequires : r.requires = s.edges.filterMap (named? table) := by
    unfold record at hr
    split at hr
    · cases hr
    · obtain ⟨requires, hrequires, hr⟩ := Logged.bind_eq_ok hr
      cases hr
      exact targets_eq hrequires
  have hnamed : named? table edge = some (edge.specifier, t) := by
    simp only [named?, htarget, ht, Option.map_some]
  have hafter : Ordered.get? edge.specifier (after.filterMap (named? table)).reverse = none := by
    rw [Ordered.get?_eq_none_iff, List.map_reverse, List.mem_reverse]
    intro hmem
    obtain ⟨pair, hpair, hkey⟩ := List.mem_map.1 hmem
    obtain ⟨e, he, hpair⟩ := List.mem_filterMap.1 hpair
    have hspecifier : e.specifier = edge.specifier := by
      unfold named? at hpair
      split at hpair
      · obtain ⟨_, -, rfl⟩ := Option.map_eq_some_iff.1 hpair
        exact hkey
      · cases hpair
    rw [named?, hlast e he hspecifier] at hpair
    cases hpair
  rw [ModuleRecord.ownTarget?, hrequires, hedges, List.filterMap_append,
    List.filterMap_cons_some hnamed, List.reverse_append, List.reverse_cons, List.append_assoc,
    Ordered.get?_append, hafter]
  simp [Ordered.get?, hown]

end Source

namespace Assembly

variable {cwd : String} {file : Option String} {table : NameTable} {b : Bundle}
variable {sources : Naming.Sources} {known : List String} {a : Assembly} {p : String × Source}
variable {f t target : String} {before after : List Edge} {edge : Edge}

theorem exists_add_of_foldlM {a₀ : Assembly}
    (h : (sources.foldlM (add cwd file table) a₀).outcome = .ok a) (hp : p ∈ sources) :
    ∃ a₁ a₂, (add cwd file table a₁ p).outcome = .ok a₂ := by
  induction sources generalizing a₀ with
  | nil => cases hp
  | cons q sources ih =>
    rw [List.foldlM_cons] at h
    obtain ⟨a₁, hq, h⟩ := Logged.bind_eq_ok h
    obtain rfl | hp := List.mem_cons.1 hp
    · exact ⟨a₀, a₁, hq⟩
    · exact ih h hp

theorem exists_record (hs : b.sources file = .ok sources)
    (ha : (ofBundle cwd file table b known).outcome = .ok a) (hp : p ∈ sources)
    (hf : table.get? p.1 = some f) (hown : ModuleName.classify f = .own) :
    ∃ r body, (p.2.record file table p.1).outcome = .ok r ∧ r.program cwd = .ok body := by
  rw [ofBundle, hs] at ha
  obtain ⟨_, hsources, ha⟩ := Logged.bind_eq_ok ha
  cases hsources
  obtain ⟨a₁, a₂, hadd⟩ := exists_add_of_foldlM ha hp
  obtain ⟨id, s⟩ := p
  simp only [add, hf, hown] at hadd
  obtain ⟨r, hr, hadd⟩ := Logged.bind_eq_ok hadd
  obtain ⟨body, hbody, -⟩ := Logged.bind_eq_ok hadd
  exact ⟨r, body, hr, hbody⟩

/-- For an extracted module and an edge of its require map that leads to another extracted module, the
specifier that takes the place of the edge's leads to that module if the module is not named like a
directory around the first one, and if `ModuleName.LinksUp` holds. -/
theorem candidate_link_iff (hs : b.sources file = .ok sources)
    (ha : (ofBundle cwd file table b known).outcome = .ok a)
    (hcwd : Path.isAbsolute cwd.toList = true) (hp : p ∈ sources) (hf : table.get? p.1 = some f)
    (hown : ModuleName.classify f = .own) (hedges : p.2.edges = before ++ edge :: after)
    (htarget : edge.target = .ok (some target))
    (hlast : ∀ e ∈ after, e.specifier = edge.specifier → e.target = .ok none)
    (ht : table.get? target = some t) (htown : ModuleName.classify t = .own) :
    ∃ r, (p.2.record file table p.1).outcome = .ok r ∧
      (r.link cwd edge.specifier = none ↔ ModuleName.stripExtension t = "") ∧
      ∀ new, r.link cwd edge.specifier = some new →
        (ModuleName.NamesDirectory cwd f t → (ModuleName.candidate f new = t ↔
          t = String.ofList (ModuleName.dotted cwd.toList f.toList t.toList))) ∧
        (¬ ModuleName.NamesDirectory cwd f t → (ModuleName.candidate f new = t ↔
          ModuleName.LinksUp cwd.toList f.toList t.toList)) := by
  obtain ⟨r, -, hr, -⟩ := exists_record hs ha hp hf hown
  have hlink : r.link cwd edge.specifier = ModuleName.specifier? cwd f t := by
    rw [ModuleRecord.link, Source.ownTarget?_record hr hedges htarget hlast ht htown,
      (Source.record_ok hf hr).1]
    rfl
  obtain ⟨hnone, hsome⟩ := ModuleName.candidate_specifier? hcwd f t
  refine ⟨r, hr, hlink ▸ hnone, fun new hnew => ?_⟩
  obtain ⟨hdirectory, hfile⟩ := hsome new (hlink ▸ hnew)
  exact ⟨fun h => by rw [hdirectory h, eq_comm], fun h => (hfile h).2⟩

/-- A module `lib`, and a module in the directory `lib` beside it that requires it. -/
def nested : Bundle :=
  Naming.sketch [("1", [("./lib", 2), ("./lib/x", 3)]), ("2", []), ("3", [("../lib", 2)])] [1]

def nestedNames : NameTable :=
  { names := [("1", "main"), ("2", "lib"), ("3", "lib/x")], entries := ["main"] }

theorem resolve_nested :
    (Naming.resolve none ModuleName.entryNames nested).outcome.toOption = some nestedNames := by
  decide +kernel

theorem candidate_link_iff_nested :
    ∃ sources a p r, nested.sources none = .ok sources ∧
      (Naming.resolve none ModuleName.entryNames nested).outcome = .ok nestedNames ∧
      (ofBundle "/" none nestedNames nested).outcome = .ok a ∧ p ∈ sources ∧
      (p.2.record none nestedNames p.1).outcome = .ok r ∧ r.link "/" "./lib" = some "./lib.js" ∧
      ModuleName.candidate r.name "./lib.js" = "lib" := by
  obtain ⟨first, rest, hs⟩ : ∃ first rest, nested.sources none = .ok (first :: rest) := ⟨_, _, rfl⟩
  obtain ⟨a, ha⟩ : ∃ a, (ofBundle "/" none nestedNames nested).outcome = .ok a := ⟨_, rfl⟩
  have hfirst : first.1 = "1" ∧ first.2.edges =
      [] ++ ⟨"./lib", .ok (some "2")⟩ :: [⟨"./lib/x", .ok (some "3")⟩] := by
    cases hs
    exact ⟨rfl, rfl⟩
  obtain ⟨r, hr, -, hlinks⟩ := candidate_link_iff (f := "main") (t := "lib") hs ha rfl (.head _)
    (by rw [hfirst.1]; rfl) rfl hfirst.2 rfl (by decide) rfl rfl
  refine ⟨_, a, first, r, hs, eq_ok_of_toOption resolve_nested, ha, .head _, hr, ?_⟩
  have hlink : r.link "/" "./lib" = some "./lib.js" := by
    cases hs
    cases hr
    decide
  have hname : r.name = "main" := (Source.record_ok (by rw [hfirst.1]; rfl) hr).1
  have happart : ¬ ModuleName.NamesDirectory "/" "main" "lib" := by
    unfold ModuleName.NamesDirectory
    decide
  refine ⟨hlink, hname ▸ ((hlinks _ hlink).2 happart).2 ⟨?_, ?_, ?_, .inl ?_⟩⟩ <;> decide

/-- The module in the directory does not find the one beside it. -/
theorem not_candidate_link_nested :
    ∃ sources a p r, nested.sources none = .ok sources ∧
      (Naming.resolve none ModuleName.entryNames nested).outcome = .ok nestedNames ∧
      (ofBundle "/" none nestedNames nested).outcome = .ok a ∧ p ∈ sources ∧
      (p.2.record none nestedNames p.1).outcome = .ok r ∧ r.ownTarget? "../lib" = some "lib" ∧
      ∃ new, r.link "/" "../lib" = some new ∧ ModuleName.candidate r.name new ≠ "lib" := by
  obtain ⟨_, _, third, hs⟩ : ∃ first second third, nested.sources none = .ok [first, second, third] :=
    ⟨_, _, _, rfl⟩
  obtain ⟨a, ha⟩ : ∃ a, (ofBundle "/" none nestedNames nested).outcome = .ok a := ⟨_, rfl⟩
  obtain ⟨r, hr⟩ : ∃ r, (third.2.record none nestedNames third.1).outcome = .ok r := by
    cases hs
    exact ⟨_, rfl⟩
  refine ⟨_, a, third, r, hs, eq_ok_of_toOption resolve_nested, ha, by simp, hr, ?_⟩
  cases hs
  cases hr
  exact ⟨by decide, "./..js", by decide, by decide⟩

end Assembly

end Debundle
