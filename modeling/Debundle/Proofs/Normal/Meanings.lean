import Debundle.Proofs.Normal.NormalForm

/-!
# What keeps the meaning of a tree

The meaning of a form does not change if its statements are split into others that do the same one
after the other (`meaning_splitBodies_of`), and the meaning of a tree does not change if settling a
node never changes what it means (`meaning_normalizeUpTo_of`).
-/
namespace Debundle

namespace Normal

open BigStep

variable {State Value Declared Part : Type} {S : Semantics State Value Declared Part}
variable {P : Form Node → Prop} {c : Category} {n : Node} {line : Option Nat} {form : Form Node}
variable {rules : Rules} {labels : Bool} {split : Node → List Node}

open Evaluation Execution in
theorem meaning_simple {e : Evaluation State Value} (he : S.meaning n = .expression e) :
    S.meaning (.mk line (.simple n)) = .statement (.plain (e.exec fun _ => done .normal)) := by
  rw [S.meaning_mk, Form.map, he, S.simple_law]

/-! ## Statements in the places of others -/

theorem listed_splitList (g : Form Node) {body : List Node} (hg : g.listed? = some body)
    (h : ∀ n ∈ body, Shaped P .statement n)
    (hs : ∀ n ∈ body, ∀ m ∈ split n, Shaped P .statement m)
    (hall : ∀ n ∈ body, Action.all ((split n).map S.act) = .all [S.act n]) :
    S.step ((g.withListed (body.flatMap split)).map S.meaning) =
      S.step ((g.withListed body).map S.meaning) := by
  have hflat : ∀ m ∈ body.flatMap split, Shaped P .statement m := by
    simpa [List.mem_flatMap] using fun m n hn hm => hs n hn m hm
  have heq : Action.all ((body.flatMap split).map S.act) = .all (body.map S.act) := by
    rw [List.map_flatMap]
    exact Action.all_flatMap _ _ _ hall
  by_cases hblock : ∃ ns, g = .block ns
  · obtain ⟨ns, rfl⟩ := hblock
    rw [Form.withListed, Form.withListed, Form.map, Form.map, Semantics.map_meaning hflat,
      Semantics.map_meaning h, S.block_law, S.block_law, heq]
  · have hwith : ∀ ns, g.withListed ns = g.withBody ns := fun ns => by
      cases g <;> first | rfl | exact absurd ⟨_, rfl⟩ hblock
    rw [hwith, hwith, Form.withBody_map, Form.withBody_map, Semantics.map_meaning hflat,
      Semantics.map_meaning h]
    exact S.body_law _ _ _ heq

/-- Splitting the statements of a form keeps its meaning if the statements keep what they do in
lists, under control and under labels. -/
theorem meaning_splitBodies_of (h : Shaped P c (.mk line form))
    (hb : ∀ n, Shaped P .branch n → split n = [n])
    (hs : ∀ n, Shaped P .statement n → ∀ m ∈ split n, Shaped P .statement m)
    (hall : ∀ n, Shaped P .statement n → Action.all ((split n).map S.act) = .all [S.act n])
    (hcontrol : ∀ (g : Form Node) n, Shaped P .statement n →
      S.step ((g.withControlled (wrap n (split n))).map S.meaning) =
        S.step ((g.withControlled n).map S.meaning))
    (hif : ∀ condition body alternative, form = .ifElse condition body alternative →
      S.step ((splitBodies labels split form).map S.meaning) = S.step (form.map S.meaning))
    (hlabel : labels = true → ∀ n, Shaped P .statement n →
      S.meaning (wrap n (split n)) = S.meaning n) :
    S.meaning (.mk line (splitBodies labels split form)) = S.meaning (.mk line form) := by
  rw [S.meaning_mk, S.meaning_mk]
  have hbroken : form.isBroken = false := h.tidy.isBroken
  have free : ∀ n ∈ form.freeStatements, Shaped P .statement n := fun n hn =>
    h.part (p := (.statement, n)) ((mem_freeStatements_iff (c := c) hbroken).1 hn).1
  obtain ⟨body, hf⟩ | ⟨n, hf⟩ | ⟨condition, body, alternative, hf⟩ | ⟨label, body, rfl⟩ |
    ⟨subject, branches, rfl⟩ | ⟨hf, -⟩ := statements_cases hbroken
  · rw [Form.freeStatements_of_listed? hf] at free
    rw [splitBodies_listed hf, splitList_of_tidy fun n hn => (free n hn).tidy,
      listed_splitList form hf free (fun n hn => hs n (free n hn)) fun n hn => hall n (free n hn),
      Form.withListed_eq_self hf]
  · rw [Form.freeStatements_of_controlled? hf] at free
    rw [splitBodies_controlled hf, hcontrol form n (free n (.head _)),
      Form.withControlled_eq_self hf]
  · exact hif condition body alternative hf
  · cases labels with
    | false => rfl
    | true =>
      have hbody : Shaped P .statement body := h.part (p := (.statement, body)) (.head _)
      change S.step (.labeled label (S.meaning (wrap body (split body)))) = _
      rw [hlabel rfl body hbody]
      rfl
  · have hbranch : ∀ n ∈ branches, Shaped P .branch n := fun n hn =>
      h.part (p := (.branch, n)) (by simp [Node.form, Form.parts, Form.many, hn])
    have hflat : branches.flatMap split = branches := by
      conv_rhs => rw [← List.flatMap_singleton' branches]
      exact List.flatMap_congr fun n hn => hb n (hbranch n hn)
    change S.step ((Form.switch subject (splitList split branches)).map S.meaning) = _
    rw [splitList_of_tidy fun n hn => (hbranch n hn).tidy, hflat]
  · rw [hf]

/-! ## Whole trees -/

theorem meaning_normalizeUpTo_of (hP : Stable P) (hn : Names P rules)
    (hsettle : ∀ {c line form}, Tidy P c (.mk line form) →
      S.meaning (.mk line (settle rules line form)) = S.meaning (.mk line form))
    (h : Tidy P c n) (fuel : Nat) : S.meaning (normalizeUpTo rules fuel n) = S.meaning n := by
  induction fuel generalizing c n with
  | zero => rfl
  | succ fuel ih =>
    obtain ⟨line, form⟩ := n
    rw [← hsettle h, normalizeUpTo, S.meaning_mk, S.meaning_mk, Form.map_map]
    refine congrArg S.step (Form.map_congr fun m hm => ?_)
    obtain ⟨d, hd⟩ := (tidy_settle hP hn h).child hm
    exact ih hd

end Normal

end Debundle
