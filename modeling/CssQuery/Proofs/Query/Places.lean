import CssQuery.Proofs.Query.Fit
import Mathlib.Data.Set.Card

namespace CssQuery

-- Whether a sibling counts for the position of a node.
def Tree.alike (tree : Tree) (exactNames : Bool) : Scope → Node → Node → Bool
  | .all, _, _ => true
  | .sameType, node, x => typeName tree exactNames x == typeName tree exactNames node

variable {tree : Tree} {exactNames : Bool} {scope : Scope} {node : Node} {before after : List Node}

theorem Tree.Consistent.aside_nodup (h : tree.Consistent) {edge : Edge} :
    (tree.aside edge node).Nodup := by
  cases edge with
  | first => exact ((List.nodup_cons.1 h.prevs.nodup).2).filter _
  | last => exact ((List.nodup_cons.1 h.nexts.nodup).2).filter _

-- Counting along the links counts the elements there are.
theorem Tree.Consistent.countP_aside (h : tree.Consistent) {edge : Edge} {counts : Node → Bool}
    {P : Node → Prop} (hp : ∀ x, P x ↔ x ∈ tree.aside edge node ∧ counts x = true) :
    (tree.aside edge node).countP counts = {x | P x}.ncard := by
  have hset : {x | P x} = (((tree.aside edge node).filter counts).toFinset : Set Node) := by
    ext x
    simp only [Set.mem_ofPred_eq, List.coe_toFinset, List.mem_filter, hp]
  rw [hset, Set.ncard_coe_finset, List.toFinset_card_of_nodup (h.aside_nodup.filter _),
    List.countP_eq_length_filter]

-- Of the nodes of a list the given one is found where it stands.
theorem findRev?_mapIdx (place : Nat → Node → SiblingPosition) (ha : node ∉ after) :
    ((before ++ node :: after).mapIdx fun i x => (x, place i x)).findRev? (·.1 == node) =
      some (node, place before.length node) := by
  rw [List.findRev?_eq_find?_reverse, List.mapIdx_append, List.mapIdx_cons, List.reverse_append,
    List.reverse_cons, List.append_assoc, List.find?_append]
  have hn : ((after.mapIdx fun i x => (x, place (i + 1 + before.length) x)).reverse.find?
      (·.1 == node)) = none := by
    rw [List.find?_eq_none]
    intro entry hm
    obtain ⟨i, hi, rfl⟩ := List.mem_mapIdx.1 (List.mem_reverse.1 hm)
    simp only [beq_iff_eq]
    rintro rfl
    exact ha (List.getElem_mem hi)
  rw [hn]
  simp

theorem typePlaces_eq (typeOf : Node → String) (nodes : List Node) :
    typePlaces typeOf nodes = nodes.mapIdx fun i x =>
      (x, ⟨((nodes.map typeOf).take i).count (typeOf x) + 1,
        (nodes.map typeOf).count (typeOf x)⟩) := by
  simp only [typePlaces]
  rw [← List.map_prod_left_eq_zip]
  apply List.ext_getElem
  · simp
  · simp

-- The position of an element is told by its siblings on either side that count.
theorem Tree.Consistent.countedPlace_eq (h : tree.Consistent) (he : tree.isElement node = true) :
    countedPlace tree exactNames scope node =
      ⟨(tree.precedingElements node).countP (tree.alike exactNames scope node) + 1,
        (tree.precedingElements node).countP (tree.alike exactNames scope node) + 1 +
          (tree.followingElements node).countP (tree.alike exactNames scope node)⟩ := by
  have hl := h.elementSiblings_eq he
  have hd := h.elementSiblings_nodup node
  rw [hl, List.nodup_append] at hd
  have hn : node ∉ tree.followingElements node := (List.nodup_cons.1 hd.2.1).1
  cases scope with
  | all =>
      have hall : tree.alike exactNames .all node = fun _ => true := rfl
      simp only [countedPlace, siblingPlaces, places, ownPlace, hl]
      rw [findRev?_mapIdx _ hn]
      simp only [List.length_reverse, List.length_append, List.length_cons, hall, List.countP_true,
        SiblingPosition.mk.injEq, true_and]
      omega
  | sameType =>
      simp only [countedPlace, siblingPlaces, typePlaces_eq, ownPlace, hl]
      rw [findRev?_mapIdx _ hn, List.map_append, List.take_left' (by simp)]
      simp only [List.count_eq_countP, List.countP_map, List.countP_append, List.countP_cons,
        List.countP_reverse, List.map_cons, List.map_reverse, beq_self_eq_true, ite_true]
      have hsame : (fun x => typeName tree exactNames x == typeName tree exactNames node) =
          tree.alike exactNames .sameType node := rfl
      simp only [Function.comp_def, hsame, SiblingPosition.mk.injEq, true_and]
      omega

theorem SiblingPosition.fromEnd_counted (before after : Nat) :
    fromEnd ⟨before + 1, before + 1 + after⟩ = 1 + after := by
  rw [fromEnd, if_pos (by simp only; omega)]
  simp only
  omega

namespace Scene

variable {scene : Scene}

theorem place_of_untold (ht : toldPosition? scene.tree scope node = none) :
    scene.place scope node = countedPlace scene.tree scene.exactNames scope node := by
  rw [place, ht, Option.getD_none]

-- A formula is asked about one more than the siblings that count on its side.
theorem indexAt_eq (h : scene.tree.Consistent) (ht : toldPosition? scene.tree scope node = none)
    (he : scene.tree.isElement node = true) (edge : Edge) :
    scene.indexAt edge scope node =
      1 + (scene.tree.aside edge node).countP (scene.tree.alike scene.exactNames scope node) := by
  cases edge with
  | first =>
      rw [indexAt, place_of_untold ht, h.countedPlace_eq he]
      exact Nat.add_comm _ _
  | last =>
      rw [indexAt, place_of_untold ht, h.countedPlace_eq he]
      exact SiblingPosition.fromEnd_counted _ _

end Scene

end CssQuery
