import CssQuery.Proofs.Dom.Links
import CssQuery.Proofs.Query.Places
import CssQuery.Proofs.Selector.Meaning

namespace CssQuery

variable {dom : Dom} {a b x : Node} {edge : Edge} {combinator : Combinator}

-- The nearest element before a node is the one that no other stands behind.
theorem Tree.Consistent.prevElement_iff {tree : Tree} (h : tree.Consistent) :
    tree.prevElement a = some b ↔ b ∈ tree.precedingElements a ∧
      ∀ x ∈ tree.precedingElements a, ¬ tree.Earlier b x := by
  rw [Tree.prevElement_eq_some]
  constructor
  · rintro ⟨rest, hl⟩
    refine ⟨by simp [hl], ?_⟩
    intro x hx hbx
    rw [hl] at hx
    rcases List.mem_cons.1 hx with rfl | hx
    · exact h.not_earlier_self x hbx
    · have hxb := h.mem_precedingElements_of_cons hl hx
      exact h.not_earlier_self b (hbx.trans (h.mem_precedingElements_iff.1 hxb).1)
  · rintro ⟨hb, hn⟩
    cases hl : tree.precedingElements a with
    | nil => simp [hl] at hb
    | cons c rest =>
        rw [hl] at hb
        rcases List.mem_cons.1 hb with rfl | hb
        · exact ⟨rest, rfl⟩
        · have hbc := h.mem_precedingElements_of_cons hl hb
          exact absurd (h.mem_precedingElements_iff.1 hbc).1 (hn c (by simp [hl]))

namespace Dom.Forest

variable (h : Forest dom)

theorem parentElement_iff : dom.toTree.parentElement a = some b ↔ dom.ParentElement a b :=
  Tree.parentElement_eq_some

include h

theorem mem_precedingElements : x ∈ dom.toTree.precedingElements a ↔ dom.ElementBefore a x := by
  rw [h.consistent.mem_precedingElements_iff, h.earlier_iff, and_comm]
  rfl

theorem mem_followingElements : x ∈ dom.toTree.followingElements a ↔ dom.ElementAfter a x := by
  rw [Tree.mem_followingElements, h.consistent.mem_following, h.earlier_iff, and_comm]
  rfl

theorem mem_aside : x ∈ dom.toTree.aside edge a ↔ dom.ElementAside edge a x := by
  cases edge with
  | first => exact h.mem_precedingElements
  | last => exact h.mem_followingElements

theorem mem_ancestorElements :
    b ∈ dom.toTree.ancestorElements a ↔ Relation.TransGen dom.ParentElement a b := by
  have hstep : (fun x y => dom.toTree.parentElement x = some y) = dom.ParentElement := by
    funext x y
    exact propext parentElement_iff
  rw [h.consistent.mem_ancestorElements, Met, hstep]

-- The search tries the elements that the combinator speaks of.
theorem mem_reached : b ∈ dom.toTree.reached combinator a ↔ combinator.Relates dom a b := by
  cases combinator with
  | child => simp only [Tree.reached, Option.mem_toList, parentElement_iff, Combinator.Relates]
  | descendant => exact h.mem_ancestorElements
  | subsequentSibling => exact h.mem_precedingElements
  | nextSibling =>
      simp only [Tree.reached, Option.mem_toList, h.consistent.prevElement_iff,
        h.mem_precedingElements, Combinator.Relates, h.earlier_iff]
      refine and_congr_right fun _ => forall_congr' fun x => forall_congr' fun hx => ?_
      simp [ElementAfter, hx.1]

-- The elements counted along the links are those that stand there in the lists.
theorem countP_aside {counts : Node → Bool} {P : Node → Prop}
    (hc : ∀ x, dom.isElement x = true → (counts x = true ↔ P x)) :
    (dom.toTree.aside edge a).countP counts = {x | dom.ElementAside edge a x ∧ P x}.ncard := by
  apply h.consistent.countP_aside
  intro x
  rw [h.mem_aside]
  refine and_congr_right fun hx => (hc x ?_).symm
  cases edge <;> exact hx.1

end Dom.Forest

end CssQuery
