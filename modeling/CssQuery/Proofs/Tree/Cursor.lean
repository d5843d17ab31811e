import CssQuery.Proofs.Tree.Preorder

namespace CssQuery

-- What comes out of a process, turn by turn, up to a turn where it ends. A turn may pass
-- without a node.
inductive Emits {State : Type} (turn : State → Option (Option Node × State)) :
    State → List Node → Prop
  | done {state : State} (h : turn state = none) : Emits turn state []
  | emit {state later : State} {node : Node} {rest : List Node}
      (h : turn state = some (some node, later)) (hrest : Emits turn later rest) :
      Emits turn state (node :: rest)
  | pass {state later : State} {rest : List Node} (h : turn state = some (none, later))
      (hrest : Emits turn later rest) : Emits turn state rest

-- A walk along links remembers one node: the one that comes out next, or one whose
-- subtree is finished.
inductive Cursor where
  | entering (node : Node)
  | leaving (node : Node)
  | ended

-- Where to go on, if there is a node to go on with.
def Cursor.ofNext : Option Node → Cursor
  | some node => .entering node
  | none => .ended

namespace Tree

variable (tree : Tree)

-- A node that is left leads to the sibling after it, or up to its parent. The walk ends
-- where it comes back to the root, or finds no parent.
def cursorTurn (root : Node) : Cursor → Option (Option Node × Cursor)
  | .entering node =>
      match tree.firstChild node with
      | some child => some (some node, .entering child)
      | none => some (some node, .leaving node)
  | .leaving node =>
      if node = root then some (none, .ended)
      else
        match tree.nextSibling node, tree.parent node with
        | some sibling, _ => some (none, .entering sibling)
        | none, some parent => some (none, .leaving parent)
        | none, none => some (none, .ended)
  | .ended => none

def cursorAt (root : Node) : Cursor := .ofNext (tree.firstChild root)

variable {tree} {root a : Node} {rest : List Node}

theorem afterSubtree_top (hne : a ≠ root) (hn : tree.nextSibling a = none)
    (hp : tree.parent a = none) : tree.afterSubtree root a = none := by
  simp [afterSubtree, hne, hn, ancestors_eq_nil hp]

namespace Consistent

variable (h : tree.Consistent)

include h

-- The climb from a node whose subtree is finished goes up to the root at most.
theorem emits_leaving
    (he : Emits (tree.cursorTurn root) (.ofNext (tree.afterSubtree root a)) rest) :
    Emits (tree.cursorTurn root) (.leaving a) rest := by
  induction a using h.parents.wellFounded.induction with
  | _ a ih =>
      by_cases ha : a = root
      · subst ha
        rw [afterSubtree_self] at he
        exact .pass (by simp [cursorTurn, Cursor.ofNext]) he
      · cases hn : tree.nextSibling a with
        | some s =>
            rw [afterSubtree_next ha hn] at he
            exact .pass (by simp [cursorTurn, Cursor.ofNext, ha, hn]) he
        | none =>
            cases hp : tree.parent a with
            | none =>
                rw [afterSubtree_top ha hn hp] at he
                exact .pass (by simp [cursorTurn, Cursor.ofNext, ha, hn, hp]) he
            | some p =>
                rw [h.afterSubtree_parent ha hn hp] at he
                exact .pass (by simp [cursorTurn, ha, hn, hp]) (ih p hp he)

theorem emits_entering
    (he : Emits (tree.cursorTurn root) (.ofNext (tree.preorderStep root a)) rest) :
    Emits (tree.cursorTurn root) (.entering a) (a :: rest) := by
  unfold preorderStep at he
  cases hc : tree.firstChild a with
  | some c =>
      rw [hc] at he
      exact .emit (by simp [cursorTurn, Cursor.ofNext, hc]) he
  | none =>
      rw [hc] at he
      exact .emit (by simp [cursorTurn, hc]) (h.emits_leaving he)

-- Turn by turn the cursor comes to the nodes of the walk, and then to its end.
theorem emits_walk (a : Node) :
    Emits (tree.cursorTurn root) (.entering a)
      (a :: walk (tree.preorderStep root) tree.size a) := by
  induction a using (h.preorderSteps root).wellFounded.induction with
  | _ a ih =>
      apply h.emits_entering
      cases hs : tree.preorderStep root a with
      | none =>
          rw [walk_eq_nil hs]
          exact .done rfl
      | some b =>
          rw [(h.preorderSteps root).walk_eq_cons hs]
          exact ih b hs

theorem emits_descendants (root : Node) :
    Emits (tree.cursorTurn root) (tree.cursorAt root) (tree.descendants root) := by
  unfold cursorAt descendants
  cases tree.firstChild root with
  | none => exact .done rfl
  | some child => exact h.emits_walk child

end Consistent

end Tree

end CssQuery
