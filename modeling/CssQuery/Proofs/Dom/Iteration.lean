import CssQuery.Proofs.Dom.History
import CssQuery.Proofs.Tree.Cursor

namespace CssQuery.Dom

-- A walk down the lists of children keeps a stack of nodes that are still to come out, the
-- next one on top. A node that comes out makes room for its children.
def stackTurn (dom : Dom) : List Node → Option (Option Node × List Node)
  | [] => none
  | node :: waiting => some (some node, dom.children node ++ waiting)

-- The nodes below a given one, each once, where a node comes before those below it, and
-- what lies in the subtree of a child before what lies in that of a later child.
structure Preordered (dom : Dom) (top : Node) (nodes : List Node) : Prop where
  count_eq : ∀ node, nodes.count node = if dom.isDescendantOf node top then 1 else 0
  not_mem : top ∉ nodes
  below : ∀ a ∈ nodes, ∀ b ∈ nodes, dom.isDescendantOf b a = true → [a, b].Sublist nodes
  beside : ∀ parent x y, [x, y].Sublist (dom.children parent) → ∀ a ∈ nodes, ∀ b ∈ nodes,
    (a = x ∨ dom.isDescendantOf a x = true) → (b = y ∨ dom.isDescendantOf b y = true) →
      [a, b].Sublist nodes

variable {dom : Dom} {changes : List Change} {a b : Node}

namespace Forest

variable (h : Forest dom)

include h

-- The stack stands for all that lies in the subtrees of its nodes, and loses a node by turn.
theorem emits_stack (stack : List Node) :
    Emits dom.stackTurn stack (stack.flatMap fun node => node :: dom.descendants node) := by
  induction hl : (stack.flatMap fun node => node :: dom.descendants node).length
      using Nat.strongRecOn generalizing stack with
  | ind count ih =>
      cases stack with
      | nil => exact .done rfl
      | cons node waiting =>
          have hrest : (dom.children node ++ waiting).flatMap
              (fun node => node :: dom.descendants node) =
                dom.descendants node ++
                  waiting.flatMap fun node => node :: dom.descendants node := by
            rw [List.flatMap_append, ← h.descendants_eq_flatMap]
          refine .emit rfl ?_
          have hlater := ih _ ?_ (dom.children node ++ waiting) rfl
          · rwa [hrest] at hlater
          · rw [hrest, ← hl, List.flatMap_cons, List.cons_append, List.length_cons]
            exact Nat.lt_succ_self _

theorem emits_children (top : Node) :
    Emits dom.stackTurn (dom.children top) (dom.descendants top) := by
  rw [h.descendants_eq_flatMap]
  exact h.emits_stack (dom.children top)

theorem preordered (top : Node) : dom.Preordered top (dom.descendants top) where
  count_eq node := by
    have hn := h.consistent.nodup_of_pairwise (h.descendants_pairwise top)
    rw [hn.count]
    simp only [h.mem_descendants, ← h.isDescendantOf_iff_below]
  not_mem hm := h.not_below_self top (h.mem_descendants.1 hm)
  below a ha b hb hba := by
    have hab : dom.toTree.Before a b := .of_below (h.isDescendantOf_iff_below.1 hba)
    exact h.consistent.pair_of_before (h.descendants_pairwise top) ha hb hab
  beside parent x y hxy a ha b hb hax hby := by
    have hinside : ∀ {c z}, c = z ∨ dom.isDescendantOf c z = true → dom.toTree.Inside c z :=
      fun hc => hc.imp_right h.isDescendantOf_iff_below.1
    have he : dom.toTree.Earlier x y := h.earlier_iff.2 ⟨parent, hxy⟩
    have hab : dom.toTree.Before a b := .of_earlier he (hinside hax) (hinside hby)
    exact h.consistent.pair_of_before (h.descendants_pairwise top) ha hb hab

end Forest

-- However a document came about, a walk with a stack and a walk along the links both end,
-- and give the same nodes in the same order.
theorem emits_descendants_of_history (h : History .new changes dom) (top : Node) :
    Emits dom.stackTurn (dom.children top) (dom.descendants top) ∧
    Emits (dom.toTree.cursorTurn top) (dom.toTree.cursorAt top) (dom.descendants top) ∧
    dom.toTree.descendants top = dom.descendants top ∧
    dom.Preordered top (dom.descendants top) := by
  have hforest := h.forest .new
  have hlinks := hforest.consistent.emits_descendants top
  have hsame := hforest.descendants_eq top
  rw [hsame] at hlinks
  exact ⟨hforest.emits_children top, hlinks, hsame, hforest.preordered top⟩

-- A list of two items, the first of which holds two texts. It is linked to the document last.
def nestedChanges : List Change :=
  [.edit (.create (.element "ul" .empty)), .edit (.appendNew 1 (.element "li" .empty)),
    .edit (.appendNew 2 (.text "a")), .edit (.appendNew 1 (.element "li" .empty)),
    .edit (.appendNew 2 (.text "b")), .edit (.append root 1)]

-- The walks below the first item stop there, though another item follows.
theorem emits_descendants_of_history_nested : ∃ dom, History .new nestedChanges dom ∧
    dom.nextSibling 2 = some 4 ∧ Emits dom.stackTurn (dom.children 2) [3, 5] ∧
    Emits (dom.toTree.cursorTurn 2) (dom.toTree.cursorAt 2) [3, 5] ∧
    dom.Preordered 2 [3, 5] := by
  have hdom : ∃ dom, History .new nestedChanges dom ∧ dom.nextSibling 2 = some 4 ∧
      dom.descendants 2 = [3, 5] := by
    refine ⟨_, .cons trivial rfl (.cons ⟨rfl, by decide, rfl⟩ rfl
      (.cons ⟨rfl, by decide, rfl⟩ rfl (.cons ⟨rfl, by decide, rfl⟩ rfl
        (.cons ⟨rfl, by decide, rfl⟩ rfl (.cons ⟨rfl, by decide, rfl⟩ rfl .nil))))), rfl, rfl⟩
  obtain ⟨dom, hhistory, hnext, hnodes⟩ := hdom
  obtain ⟨hstack, hlinks, -, hpreordered⟩ := emits_descendants_of_history hhistory 2
  rw [hnodes] at hstack hlinks hpreordered
  exact ⟨dom, hhistory, hnext, hstack, hlinks, hpreordered⟩

end CssQuery.Dom
