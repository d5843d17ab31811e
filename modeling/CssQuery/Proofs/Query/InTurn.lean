import CssQuery.Proofs.Query.Places
import CssQuery.Proofs.Tree.Enumeration

namespace CssQuery

-- Positions that are asked for in turn, with one memory of what was found.
def positionsInTurn (tree : Tree) (exactNames : Bool) (asked : List (Scope × Node)) :
    Matching (List SiblingPosition) :=
  asked.mapM fun (scope, node) => position tree exactNames scope node

namespace Tree

variable (tree : Tree)

-- The elements that are siblings of a node, on one side of it.
def ElementAside : Edge → Node → Node → Prop
  | .first, node, x => tree.isElement x = true ∧ tree.Earlier x node
  | .last, node, x => tree.isElement x = true ∧ tree.Earlier node x

-- Those of them that count in a scope. A name that is missing counts as the empty one.
def CountedAside (exactNames : Bool) (scope : Scope) (edge : Edge) (node x : Node) : Prop :=
  tree.ElementAside edge node x ∧
    (scope = .sameType → typeName tree exactNames x = typeName tree exactNames node)

end Tree

-- A position that tells how many elements count on either side of a node.
structure SiblingPosition.Tells (tree : Tree) (exactNames : Bool) (scope : Scope) (node : Node)
    (place : SiblingPosition) : Prop where
  index : place.index = 1 + {x | tree.CountedAside exactNames scope .first node x}.ncard
  count : place.count = {x | tree.CountedAside exactNames scope .first node x}.ncard + 1 +
    {x | tree.CountedAside exactNames scope .last node x}.ncard
  one_le_index : 1 ≤ place.index
  index_le_count : place.index ≤ place.count
  fromEnd : place.fromEnd = 1 + {x | tree.CountedAside exactNames scope .last node x}.ncard
  fromEnd_add_index : place.fromEnd + place.index = place.count + 1

variable {tree : Tree} {exactNames : Bool} {scope : Scope} {edge : Edge} {node x : Node}

theorem Tree.alike_iff : tree.alike exactNames scope node x = true ↔
    (scope = .sameType → typeName tree exactNames x = typeName tree exactNames node) := by
  cases scope with
  | all => simp [alike]
  | sameType => simp [alike]

namespace Tree.Consistent

variable (h : tree.Consistent)

include h

theorem mem_aside : x ∈ tree.aside edge node ↔ tree.ElementAside edge node x := by
  cases edge with
  | first => rw [aside, mem_precedingElements, h.mem_preceding, and_comm, ElementAside]
  | last => rw [aside, mem_followingElements, h.mem_following, and_comm, ElementAside]

theorem countP_alike (exactNames : Bool) (scope : Scope) (node : Node) (edge : Edge) :
    (tree.aside edge node).countP (tree.alike exactNames scope node) =
      {x | tree.CountedAside exactNames scope edge node x}.ncard := by
  apply h.countP_aside
  intro x
  rw [CountedAside, h.mem_aside, alike_iff]

theorem countedPlace_tells (he : tree.isElement node = true) :
    (countedPlace tree exactNames scope node).Tells tree exactNames scope node := by
  have hfirst := h.countP_alike exactNames scope node .first
  have hlast := h.countP_alike exactNames scope node .last
  simp only [aside] at hfirst hlast
  rw [h.countedPlace_eq he, hfirst, hlast]
  exact {
    index := Nat.add_comm _ _
    count := rfl
    one_le_index := Nat.le_add_left _ _
    index_le_count := Nat.le_add_right _ _
    fromEnd := SiblingPosition.fromEnd_counted _ _
    fromEnd_add_index := by
      rw [SiblingPosition.fromEnd_counted]
      simp only
      omega }

end Tree.Consistent

namespace Scene

variable {scene : Scene}

-- Each answer leaves a memory from which the next ones come out as if it was not there.
theorem positionsInTurn_gives (h : scene.tree.Consistent) (asked : List (Scope × Node)) :
    scene.Gives (positionsInTurn scene.tree scene.exactNames asked)
      (asked.map fun (scope, node) => scene.place scope node) := by
  induction asked with
  | nil => exact .pure []
  | cons first more ih =>
      rw [positionsInTurn, List.mapM_cons]
      exact (position_gives h first.1 first.2).bind (ih.ret _)

end Scene

-- Whatever was asked for before, each answer is the one that counting gives, and for an
-- element that is how many siblings stand on either side.
theorem positionsInTurn_tell (h : tree.Consistent) (hu : ∀ node, tree.elementIndex node = none)
    (exactNames : Bool) (asked : List (Scope × Node)) :
    List.Forall₂ (fun (scope, node) place =>
        place = (position tree exactNames scope node).alone ∧
          (tree.isElement node = true → place.Tells tree exactNames scope node))
      asked (positionsInTurn tree exactNames asked).alone := by
  let scene : Scene := ⟨tree, exactNames⟩
  have hs : scene.tree.Consistent := h
  have hall : (positionsInTurn tree exactNames asked).alone = _ :=
    (Scene.positionsInTurn_gives hs asked).alone_eq
  rw [hall, List.forall₂_map_right_iff, List.forall₂_same]
  rintro ⟨scope, node⟩ -
  have halone : (position tree exactNames scope node).alone = scene.place scope node :=
    (Scene.position_gives hs scope node).alone_eq
  have ht : toldPosition? scene.tree scope node = none := by
    cases scope with
    | all => exact hu node
    | sameType => rfl
  refine ⟨halone.symm, fun he => ?_⟩
  change (scene.place scope node).Tells tree exactNames scope node
  rw [Scene.place_of_untold ht]
  exact h.countedPlace_tells he

-- The paragraph and the list before it have no parent. The second item of the list is asked
-- for before the first.
theorem positionsInTurn_tell_outline : Dom.outline.topTrees.Consistent ∧
    (∀ node, Dom.outline.topTrees.elementIndex node = none) ∧
    (positionsInTurn Dom.outline.topTrees false
      [(.sameType, 3), (.all, 5), (.sameType, 2), (.all, 1)]).alone =
        [⟨2, 2⟩, ⟨2, 2⟩, ⟨1, 2⟩, ⟨1, 2⟩] ∧
    {x | Dom.outline.topTrees.CountedAside false .all .first 5 x}.ncard = 1 := by
  have h := Dom.built_outline.forest.consistent_topTrees
  have hu : ∀ node, Dom.outline.topTrees.elementIndex node = none := fun _ => rfl
  have hplaces : (positionsInTurn Dom.outline.topTrees false
      [(.sameType, 3), (.all, 5), (.sameType, 2), (.all, 1)]).alone =
        [⟨2, 2⟩, ⟨2, 2⟩, ⟨1, 2⟩, ⟨1, 2⟩] := by
    have hs : (Scene.mk Dom.outline.topTrees false).tree.Consistent := h
    refine (Scene.positionsInTurn_gives hs _).alone_eq.trans ?_
    with_unfolding_all rfl
  have htell := positionsInTurn_tell h hu false
    [(.sameType, 3), (.all, 5), (.sameType, 2), (.all, 1)]
  rw [hplaces] at htell
  obtain ⟨-, htell⟩ := List.forall₂_cons.1 htell
  obtain ⟨⟨-, hparagraph⟩, -⟩ := List.forall₂_cons.1 htell
  have hindex := (hparagraph rfl).index
  simp only at hindex
  exact ⟨h, hu, hplaces, by omega⟩

end CssQuery
