import Debundle.Proofs.Bundle.Files
import Debundle.Proofs.Bundle.Specifiers

/-!
# Modules of packages

A module of a package that requires a path below the package requires a module of the package. This
holds along every chain of such specifiers, and of the name that the module is given if it is required
in no other way (`package?_of_staysIn`).
-/
namespace Debundle

namespace Path

/-- A path lies below the one with some components. -/
def Below (cs : List (List Char)) (p : List Char) : Prop :=
  ∃ rest ≠ [], components p = cs ++ rest

variable {cs : List (List Char)} {p e : List Char}

theorem below_append_iff (he : '/' ∉ e) : Below cs (p ++ e) ↔ Below cs p := by
  obtain ⟨before, last, hp, hpe⟩ := components_append_of_slash_notMem p he
  have hlast : ∀ c, (∃ rest ≠ [], before ++ [c] = cs ++ rest) ↔ cs <+: before := by
    intro c
    constructor
    · rintro ⟨rest, hne, heq⟩
      obtain rfl | ⟨rest, d, rfl⟩ := rest.eq_nil_or_concat'
      · exact absurd rfl hne
      · rw [← List.append_assoc] at heq
        exact ⟨rest, (List.append_inj_left' heq rfl).symm⟩
    · rintro ⟨rest, rfl⟩
      exact ⟨rest ++ [c], by simp, by simp⟩
  rw [Below, Below, hp, hpe, hlast, hlast]

theorem Below.append_slash (h : Below cs p) (q : List Char) : Below cs (p ++ '/' :: q) := by
  obtain ⟨rest, hne, hp⟩ := h
  exact ⟨rest ++ components q, by simp [hne], by rw [components_append_slash, hp, List.append_assoc]⟩

end Path

namespace ModuleName

open Path

variable {cs : List (List Char)} {p s : List Char}

theorem below_stripChars_iff : Below cs (stripChars p) ↔ Below cs p := by
  by_cases h : stripChars p = p
  · rw [h]
  · obtain ⟨extension, hp, hextension⟩ := exists_extension h
    conv_rhs => rw [hp]
    refine (below_append_iff ?_).symm
    obtain rfl | rfl := hextension <;> decide

theorem below_candidateChars (hs : isRelative s = true) (h : Below cs (arrival p s)) :
    Below cs (candidateChars p s) := by
  rw [candidateChars_eq hs, below_stripChars_iff]
  split_ifs
  · unfold join
    rw [if_neg (by decide)]
    split_ifs
    · exact (below_append_iff (by decide)).2 h
    · exact h.append_slash index
  · exact h

/-- The components of the name of a package: one that is no scope, or a scope and another one. -/
inductive IsPackage : List (List Char) → Prop
  | plain {c : List Char} (h : c.head? ≠ some '@') : IsPackage [c]
  | inScope {scope c : List Char} (h : scope.head? = some '@') : IsPackage [scope, c]

variable {package f g : String}

/-- A name lies below the directory of a package. -/
def IsOf (package name : String) : Prop :=
  Below (packageRoot :: components package.toList) name.toList

theorem package?_of_isOf {name : String} (hP : IsPackage (components package.toList))
    (h : IsOf package name) : package? name = some package := by
  obtain ⟨rest, hne, hname⟩ := h
  have htext := ofComponents_components package.toList
  have hchars : packageChars? name.toList = some package.toList := by
    rw [packageChars?, hname]
    generalize components package.toList = parts at hP htext
    cases hP with
    | @plain c h =>
      have hc : c = package.toList := by simpa [ofComponents, List.intercalate] using htext
      cases c with
      | nil => simp [← hc]
      | cons x c =>
        have hx : x ≠ '@' := by simpa using h
        simp [← hc, hx]
    | @inScope scope c h =>
      have hc : scope ++ '/' :: c = package.toList := by
        simpa [ofComponents, List.intercalate] using htext
      obtain ⟨scope, rfl⟩ : ∃ x, scope = '@' :: x := by
        cases scope with
        | nil => cases h
        | cons x scope => exact ⟨scope, by simpa using h⟩
      simpa using hc
  rw [package?, hchars, Option.map_some, String.ofList_toList]

theorem classify_congr (h : package? f = package? g) : classify f = classify g := by
  rw [classify, classify, h]

/-- A relative specifier leads from a module to a path below a package. -/
def StaysIn (package parent specifier : String) : Prop :=
  isRelative specifier.toList = true ∧
    Below (packageRoot :: components package.toList) (arrival parent.toList specifier.toList)

theorem StaysIn.isOf {s : String} (h : StaysIn package f s) : IsOf package (candidate f s) := by
  rw [IsOf, candidate, String.toList_ofList]
  exact below_candidateChars h.1 h.2

/-- The names of what a module requires, and of what that requires, by specifiers that lead to paths
below a package. -/
def Reaches (package : String) : String → String → Prop :=
  Relation.ReflTransGen fun f g => ∃ s, StaysIn package f s ∧ g = candidate f s

theorem Reaches.package? (hP : IsPackage (components package.toList)) (h : Reaches package f g)
    (hf : package? f = some package) : ModuleName.package? g = some package := by
  induction h with
  | refl => exact hf
  | tail _ hstep _ =>
    obtain ⟨s, hs, rfl⟩ := hstep
    exact package?_of_isOf hP hs.isOf

end ModuleName

namespace Naming

variable {ctx : Context} {t t' : NameTable} {vs : List Visit} {id package : String}

/-- A module that is only required by specifiers that stay in a package is given a name in it. -/
theorem Visits.isOf (h : Visits ctx t vs t') (hnew : t.get? id = none)
    (honly : ∀ v ∈ vs, ∀ edge ∈ v.source.edges, edge.target = .ok (some id) →
      ModuleName.StaysIn package v.name edge.specifier) :
    ∀ name, t'.get? id = some name → ModuleName.IsOf package name := by
  refine h.invariant (I := fun t => ∀ name, t.get? id = some name → ModuleName.IsOf package name)
    (fun name hname => by rw [hnew] at hname; cases hname) ?_
  rintro v hv - ⟨target, candidate⟩ hp u hu name hname
  rw [NameTable.get?_propose] at hname
  split_ifs at hname with heq
  · obtain ⟨edge, hedge, htarget, rfl⟩ := mem_proposals.1 hp
    have hcandidate := (honly v hv edge hedge (heq ▸ htarget)).isOf
    obtain hkept | hnamed | hindex := renamed_cases (u.get? target)
      (ModuleName.candidate v.name edge.specifier)
    · exact hu name (heq ▸ hkept.trans hname)
    · cases hname
      rwa [hnamed]
    · cases hname
      rw [hindex, NameTable.indexOf, ModuleName.IsOf, String.toList_append]
      exact hcandidate.append_slash ModuleName.index
  · exact hu name hname

end Naming

namespace ModuleName

open Path

/-- What a module of a package requires by specifiers that lead below the package is a module of the
package and treated like it, and so is all that is required in this way from there on. A module of a
bundle that is required in no other way is given such a name. -/
theorem package?_of_staysIn {package f : String} (hP : IsPackage (components package.toList))
    (hf : package? f = some package) :
    (∀ s, StaysIn package f s →
      package? (candidate f s) = some package ∧ classify (candidate f s) = classify f) ∧
    (∀ g, Reaches package f g → package? g = some package ∧ classify g = classify f) ∧
    ∀ (file : Option String) (names : List String) (b : Bundle) (table : NameTable),
      (Naming.resolve file names b).outcome = .ok table →
      ∃ (sources : Naming.Sources) (ids : List String) (vs : List Naming.Visit),
        b.sources file = .ok sources ∧ b.entries.map Bundle.id? = ids.map (fun id => .ok (some id)) ∧
        Naming.Visits ⟨file, sources⟩ (Naming.seeded names ids) vs table ∧
        ∀ id ∉ ids, (∀ v ∈ vs, ∀ edge ∈ v.source.edges, edge.target = .ok (some id) →
            StaysIn package v.name edge.specifier) →
          ∀ name, table.get? id = some name →
            package? name = some package ∧ classify name = classify f ∧
              (classify f = .dependency → classify name ≠ .own) := by
  have hof : ∀ {g}, IsOf package g → package? g = some package ∧ classify g = classify f := fun hg =>
    have hpackage := package?_of_isOf hP hg
    ⟨hpackage, classify_congr (hpackage.trans hf.symm)⟩
  refine ⟨fun s hs => hof hs.isOf, fun g hg => ?_, fun file names b table h => ?_⟩
  · have hpackage := hg.package? hP hf
    exact ⟨hpackage, classify_congr (hpackage.trans hf.symm)⟩
  · obtain ⟨sources, ids, hs, hids⟩ := Naming.exists_ids_of_resolve h
    obtain ⟨_, heq, ⟨vs, _, hvs, -⟩, -⟩ | ⟨_, _, _, herror, -⟩ := Naming.resolve_cases names hs hids
    · cases h.symm.trans heq
      refine ⟨sources, ids, vs, hs, hids, hvs, fun id hid honly name hname => ?_⟩
      have hnew : (Naming.seeded names ids).get? id = none := by
        rw [Naming.get?_seeded, if_neg hid]
      obtain ⟨hpackage, hkind⟩ := hof (hvs.isOf hnew honly name hname)
      exact ⟨hpackage, hkind, fun hpublished hown => by rw [hkind, hpublished] at hown; cases hown⟩
    · rw [h] at herror
      cases herror

/-- A package in a scope, whose name ends like that of a file. -/
theorem package?_of_staysIn_scope :
    candidate "node_modules/@scope/pkg.js/lib/a" "../b.js" = "node_modules/@scope/pkg.js/b" ∧
      package? (candidate "node_modules/@scope/pkg.js/lib/a" "../b.js") = some "@scope/pkg.js" ∧
      classify (candidate "node_modules/@scope/pkg.js/lib/a" "../b.js") = .dependency := by
  have hstays : StaysIn "@scope/pkg.js" "node_modules/@scope/pkg.js/lib/a" "../b.js" :=
    ⟨rfl, ["b.js".toList], by decide, by decide⟩
  have hpackage : IsPackage (components "@scope/pkg.js".toList) :=
    @IsPackage.inScope "@scope".toList "pkg.js".toList rfl
  have hkind : classify "node_modules/@scope/pkg.js/lib/a" = .dependency := by decide +kernel
  obtain ⟨hstep, -⟩ := package?_of_staysIn hpackage
    (f := "node_modules/@scope/pkg.js/lib/a") (by decide)
  exact ⟨by decide, (hstep _ hstays).1, (hstep _ hstays).2.trans hkind⟩

end ModuleName

end Debundle
