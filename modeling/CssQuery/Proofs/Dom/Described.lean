import CssQuery.Proofs.Dom.Contents

namespace CssQuery.Dom.Forest

variable {dom : Dom} {node child parent : Node} (h : Forest dom)

include h

theorem ancestors_length (hc : child ∈ dom.children node) :
    (dom.ancestors child).length = (dom.ancestors node).length + 1 := by
  have hp := (h.parent_iff child node).2 hc
  exact congrArg List.length (h.consistent.ancestors_eq_cons hp)

-- A node that has as many ancestors as there are nodes does not exist.
theorem content?_eq_none_of_ancestors (hl : dom.size ≤ (dom.ancestors node).length) :
    dom.content? node = none := by
  apply content?_eq_none
  cases hp : dom.parent node with
  | none =>
      have hnil : dom.ancestors node = [] := walk_eq_nil hp
      rw [hnil] at hl
      exact hl.trans (Nat.zero_le node)
  | some p =>
      have hlt : (dom.ancestors node).length < dom.size := h.parents.length_lt hp
      omega

-- Where a description may go as deep as the nodes lie, it goes no further when it may.
theorem describeWithin_succ {depth : Nat} (hd : dom.size ≤ (dom.ancestors node).length + depth) :
    dom.describeWithin (depth + 1) node = dom.describeWithin depth node := by
  induction depth generalizing node with
  | zero =>
      have hnone := h.content?_eq_none_of_ancestors hd
      simp only [describeWithin, hnone]
  | succ depth ih =>
      have hchildren : (dom.children node).filterMap (dom.describeWithin (depth + 1)) =
          (dom.children node).filterMap (dom.describeWithin depth) := by
        apply List.filterMap_congr
        intro c hc
        have hlc := h.ancestors_length hc
        exact ih (by omega)
      rw [describeWithin, hchildren, ← describeWithin.eq_2]

theorem describe_eq (node : Node) : dom.describe node =
    match dom.content? node with
    | some (.element tag attrs) =>
        some (.element tag attrs.sort ((dom.children node).filterMap dom.describe))
    | some (.text text) => some (.text text)
    | some (.comment text) => some (.comment text)
    | some .document | none => none := by
  rw [describe, ← h.describeWithin_succ (Nat.le_add_left _ _)]
  rfl

-- Nothing lies deeper than there are nodes.
theorem descendantsWithin_of_le {depth : Nat} (hd : dom.size ≤ depth) (node : Node) :
    dom.descendantsWithin depth node = dom.descendants node := by
  have hdeeper := h.descendantsWithin_pairwise depth node
  have hdeep := h.descendantsWithin_pairwise dom.size node
  apply h.consistent.eq_of_pairwise hdeeper hdeep
  intro a
  have hl : (dom.ancestors a).length ≤ dom.size := length_walk_le
  rw [h.mem_descendantsWithin, h.mem_descendantsWithin]
  refine and_congr_right fun _ => ?_
  omega

theorem descendants_eq_flatMap (node : Node) : dom.descendants node =
    (dom.children node).flatMap fun child => child :: dom.descendants child := by
  rw [← h.descendantsWithin_of_le (Nat.le_succ _)]
  rfl

end CssQuery.Dom.Forest
