import Debundle.Proofs.Bundle.Visits

/-!
# Names proposed for one module

The shortest of the names that are proposed for a module decides, as long as no name is proposed that
is longer than it but shorter than the index of it (`shortestWins_iff`): a name is compared with the
index to which the module was moved before, not with the name that moved it.
-/
namespace Debundle

/-- Only one letter becomes longer as a small one. -/
theorem Text.length_lower {s : String} (h : '\u0130' ∉ s.toList) : (lower s).length = s.length := by
  have hchars : ∀ (cs before : List Char), '\u0130' ∉ cs → (lowerChars before cs).length = cs.length := by
    intro cs
    induction cs with
    | nil => exact fun _ _ => rfl
    | cons c cs ih =>
      intro before hcs
      rw [List.mem_cons, not_or] at hcs
      have hc : (c == '\u0130') = false := by simpa using Ne.symm hcs.1
      rw [lowerChars, List.length_append, ih _ hcs.2, hc, if_neg Bool.false_ne_true, List.length_cons]
      split_ifs <;> exact Nat.add_comm ..
  rw [lower, String.length_ofList, hchars _ _ h, String.length_toList]

namespace NameTable

variable {id name c q : String} {ps : List String}

@[simp] theorem length_indexOf (name : String) : (indexOf name).length = name.length + 6 := by
  rw [indexOf, String.length_append]
  rfl

theorem indexOf_inj : indexOf c = indexOf q ↔ c = q := by
  rw [indexOf, indexOf, String.append_left_inj]

/-- A name stays where another one is proposed that agrees with it, or that is not shorter. -/
theorem renamed_some_cases (name q : String) :
    (Text.lower name = Text.lower q ∨ name = indexOf q ∨ name.length ≤ q.length) ∧
      renamed (some name) q = name ∨
    (Text.lower name ≠ Text.lower q ∧ name ≠ indexOf q ∧ q.length < name.length) ∧
      renamed (some name) q = indexOf q := by
  unfold renamed
  dsimp only
  split_ifs with hagree hle
  · simp only [Bool.or_eq_true, decide_eq_true_eq] at hagree
    exact .inl ⟨hagree.imp_right .inl, rfl⟩
  · exact .inl ⟨.inr (.inr hle), rfl⟩
  · simp only [Bool.or_eq_true, decide_eq_true_eq, not_or] at hagree
    exact .inr ⟨⟨hagree.1, hagree.2, Nat.lt_of_not_le hle⟩, rfl⟩

/-- The name of a module for which some names were proposed, in a table that was empty. -/
def nameFrom (id : String) (ps : List String) : Option String :=
  (({} : NameTable).proposeAll (ps.map (id, ·))).get? id

theorem nameFrom_concat (id : String) (ps : List String) (q : String) :
    nameFrom id (ps ++ [q]) = some (renamed (nameFrom id ps) q) := by
  rw [nameFrom, List.map_append, proposeAll_append, List.map_singleton, proposeAll_cons, proposeAll_nil,
    get?_propose, if_pos rfl]
  rfl

/-- The name is the first proposed one, and then none that differs in more than capitals is shorter, or
the index of a shortest proposed one. -/
def ShortestWins (ps : List String) (name : String) : Prop :=
  (ps.head? = some name ∧ ∀ q ∈ ps, Text.lower name ≠ Text.lower q → name.length ≤ q.length) ∨
    ∃ c ∈ ps, name = indexOf c ∧ ∀ q ∈ ps, c.length ≤ q.length

/-- Once the name of a module is the index of a proposed name, another one that is not shorter does not
move it. -/
def StaysMoved (id : String) (ps : List String) : Prop :=
  ∀ before q after, ps = before ++ q :: after → ∀ c ∈ before, nameFrom id before = some (indexOf c) →
    c.length ≤ q.length → nameFrom id (before ++ [q]) = some (indexOf c)

/-- Once the name of a module is the index of a proposed name, other ones that are not shorter than the
proposed name are not shorter than the index either. -/
def IsSpaced (id : String) (ps : List String) : Prop :=
  ∀ before q after, ps = before ++ q :: after → ∀ c ∈ before, nameFrom id before = some (indexOf c) →
    c.length ≤ q.length →
    Text.lower (indexOf c) = Text.lower q ∨ c = q ∨ (indexOf c).length ≤ q.length

theorem staysMoved_iff : StaysMoved id ps ↔ IsSpaced id ps := by
  refine forall_congr' fun before => forall_congr' fun q => forall_congr' fun after =>
    forall_congr' fun _ => forall_congr' fun c => forall_congr' fun _ => forall_congr' fun hname =>
    forall_congr' fun _ => ?_
  rw [nameFrom_concat, hname, Option.some_inj]
  obtain ⟨hstays, heq⟩ | ⟨⟨hcase, hindex, hlt⟩, heq⟩ := renamed_some_cases (indexOf c) q
  · rw [indexOf_inj] at hstays
    exact iff_of_true heq hstays
  · rw [ne_eq, indexOf_inj] at hindex
    rw [heq, indexOf_inj]
    refine iff_of_false (Ne.symm hindex) ?_
    rintro (h | h | h)
    · exact hcase h
    · exact hindex h
    · omega

theorem ShortestWins.concat (h : ShortestWins ps name)
    (hlength : ∀ r ∈ ps ++ [q], Text.lower name = Text.lower r → name.length = r.length)
    (hspaced : ∀ c ∈ ps, name = indexOf c → c.length ≤ q.length →
      Text.lower name = Text.lower q ∨ c = q ∨ name.length ≤ q.length) :
    ShortestWins (ps ++ [q]) (renamed (some name) q) := by
  have hall : ∀ {n : Nat}, (∀ r ∈ ps, n ≤ r.length) → n ≤ q.length → ∀ r ∈ ps ++ [q], n ≤ r.length :=
    fun hps hq r hr => (List.mem_append.1 hr).elim (hps r) fun h => List.mem_singleton.1 h ▸ hq
  have hqlength := hlength q (by simp)
  obtain ⟨hfirst, hshortest⟩ | ⟨c, hc, rfl, hshortest⟩ := h
  · -- the first name is shorter than all that differ from it, and as long as the others
    have hle : ∀ r ∈ ps, name.length ≤ r.length := by
      intro r hr
      by_cases hcase : Text.lower name = Text.lower r
      · exact Nat.le_of_eq (hlength r (List.mem_append_left _ hr) hcase)
      · exact hshortest r hr hcase
    have hmoved : q.length < name.length → ∃ c ∈ ps ++ [q], indexOf q = indexOf c ∧
        ∀ r ∈ ps ++ [q], c.length ≤ r.length := fun hlt =>
      ⟨q, by simp, rfl, hall (fun r hr => Nat.le_trans (Nat.le_of_lt hlt) (hle r hr)) Nat.le.refl⟩
    obtain ⟨hstays, heq⟩ | ⟨⟨-, -, hlt⟩, heq⟩ := renamed_some_cases name q
    · rw [heq]
      by_cases hindex : name = indexOf q
      · rw [hindex]
        exact .inr (hmoved (by simp [hindex]))
      · refine .inl ⟨by rw [List.head?_append, hfirst]; rfl, fun r hr _ => hall hle ?_ r hr⟩
        obtain hcase | h | h := hstays
        · exact Nat.le_of_eq (hqlength hcase)
        · exact absurd h hindex
        · exact h
    · rw [heq]
      exact .inr (hmoved hlt)
  · obtain ⟨hstays, heq⟩ | ⟨⟨hcase, hindex, hlt⟩, heq⟩ := renamed_some_cases (indexOf c) q
    · rw [heq]
      refine .inr ⟨c, List.mem_append_left _ hc, rfl, hall hshortest ?_⟩
      rw [length_indexOf] at hstays hqlength
      obtain hcase | h | h := hstays
      · have := hqlength hcase
        omega
      · exact Nat.le_of_eq (congrArg String.length (indexOf_inj.1 h))
      · omega
    · rw [heq]
      have hshorter : q.length < c.length := by
        by_contra hle
        obtain h | h | h := hspaced c hc rfl (Nat.le_of_not_lt hle)
        · exact hcase h
        · exact hindex (indexOf_inj.2 h)
        · omega
      refine .inr ⟨q, by simp, rfl, hall (fun r hr => ?_) Nat.le.refl⟩
      exact Nat.le_trans (Nat.le_of_lt hshorter) (hshortest r hr)

/-- Names without the one letter that becomes longer are as long as each other if they differ only in
capitals. -/
theorem length_eq_of_lower (hname : '\u0130' ∉ name.toList) (hq : '\u0130' ∉ q.toList)
    (h : Text.lower name = Text.lower q) : name.length = q.length := by
  rw [← Text.length_lower hname, h, Text.length_lower hq]

theorem ShortestWins.letter (h : ShortestWins ps name) (hletter : ∀ p ∈ ps, '\u0130' ∉ p.toList) :
    '\u0130' ∉ name.toList := by
  obtain ⟨hfirst, -⟩ | ⟨c, hc, rfl, -⟩ := h
  · exact hletter name (List.mem_of_mem_head? hfirst)
  · rw [indexOf, String.toList_append, List.mem_append, not_or]
    exact ⟨hletter c hc, by decide⟩

theorem exists_shortestWins (hne : ps ≠ []) (hletter : ∀ p ∈ ps, '\u0130' ∉ p.toList)
    (h : IsSpaced id ps) : ∃ name, nameFrom id ps = some name ∧ ShortestWins ps name := by
  induction ps using List.reverseRecOn with
  | nil => exact absurd rfl hne
  | append_singleton ps q ih =>
    have hletters : ∀ p ∈ ps, '\u0130' ∉ p.toList := fun p hp => hletter p (List.mem_append_left _ hp)
    by_cases hps : ps = []
    · subst hps
      refine ⟨q, nameFrom_concat id [] q, .inl ⟨rfl, fun r hr _ => ?_⟩⟩
      cases List.mem_singleton.1 hr
      exact Nat.le.refl
    · obtain ⟨name, hname, hwins⟩ := ih hps hletters fun before r after heq =>
        h before r (after ++ [q]) (by simp [heq])
      rw [nameFrom_concat, hname]
      refine ⟨_, rfl, hwins.concat (fun r hr => ?_) fun c hc heq hle => ?_⟩
      · exact length_eq_of_lower (hwins.letter hletters) (hletter r hr)
      · subst heq
        exact h ps q [] rfl c hc hname hle

/-- Among names without the letter that becomes longer as a small one, the shortest one decides at every
time and a module that it has moved stays so, exactly if each time the other names are shorter than the
one that moved the module, or not shorter than its index. -/
theorem shortestWins_iff (id : String) {ps : List String} (hletter : ∀ p ∈ ps, '\u0130' ∉ p.toList) :
    ((∀ before, before ≠ [] → before <+: ps →
        ∃ name, nameFrom id before = some name ∧ ShortestWins before name) ∧
      StaysMoved id ps) ↔ IsSpaced id ps := by
  rw [staysMoved_iff]
  refine and_iff_right_of_imp fun h before hne hbefore => ?_
  obtain ⟨rest, rfl⟩ := hbefore
  refine exists_shortestWins hne (fun p hp => hletter p (List.mem_append_left _ hp)) ?_
  exact fun start q after heq => h start q (after ++ rest) (by simp [heq])

theorem shortestWins_moved :
    nameFrom "1" ["lib/util", "lib", "lib/index.web"] = some "lib/index" ∧
      ShortestWins ["lib/util", "lib", "lib/index.web"] "lib/index" := by
  have hname : nameFrom "1" ["lib/util", "lib", "lib/index.web"] = some "lib/index" := by
    decide +kernel
  have hspaced : IsSpaced "1" ["lib/util", "lib", "lib/index.web"] := by
    rintro before q after heq c hc hindex -
    obtain _ | ⟨first, _ | ⟨second, before⟩⟩ := before
    · cases hc
    · cases heq
      cases List.mem_singleton.1 hc
      exact absurd hindex (by decide +kernel)
    · cases before with
      | nil =>
        cases heq
        obtain rfl | hc := List.mem_cons.1 hc
        · exact absurd hindex (by decide +kernel)
        · cases List.mem_singleton.1 hc
          exact .inr (.inr (by decide))
      | cons third before => simp at heq
  obtain ⟨hwins, -⟩ := (shortestWins_iff "1" (by decide)).2 hspaced
  obtain ⟨name, heq, h⟩ := hwins _ (by simp) (List.prefix_refl _)
  cases hname.symm.trans heq
  exact ⟨hname, h⟩

/-- A name that is longer than the shortest one, but shorter than the index of that. -/
theorem not_shortestWins_overtaken :
    nameFrom "1" ["lib/utility", "lib"] = some "lib/index" ∧
      nameFrom "1" ["lib/utility", "lib", "main"] = some "main/index" ∧
      ¬ ShortestWins ["lib/utility", "lib", "main"] "main/index" := by
  refine ⟨by decide +kernel, by decide +kernel, ?_⟩
  rintro (⟨hfirst, -⟩ | ⟨c, -, hindex, hshortest⟩)
  · exact absurd hfirst (by decide)
  · obtain rfl : "main" = c := indexOf_inj.1 hindex
    exact absurd (hshortest "lib" (by decide)) (by decide)

end NameTable

end Debundle
