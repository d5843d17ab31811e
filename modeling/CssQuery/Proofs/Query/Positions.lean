import CssQuery.Proofs.Tree.Siblings
import CssQuery.Query.Match
import Mathlib.Data.List.Basic

namespace CssQuery

variable {α β : Type}

-- The position that the siblings of a node tell.
def countedPlace (tree : Tree) (exactNames : Bool) (scope : Scope) (node : Node) :
    SiblingPosition :=
  ownPlace scope node (siblingPlaces tree exactNames scope node)

-- What is known is what counting would find.
def Positions.Faithful (scene : Scene) (known : Positions) : Prop :=
  ∀ node scope place, known[(node, scope)]? = some place →
    place = countedPlace scene.tree scene.exactNames scope node

-- Positions found before do not change what a matching finds, and it finds true ones.
def Scene.Gives (scene : Scene) (matching : Matching α) (value : α) : Prop :=
  ∀ known, Positions.Faithful scene known →
    (matching known).1 = value ∧ Positions.Faithful scene (matching known).2

namespace Positions

variable {known : Positions} {scope other : Scope} {node : Node}
  {found : List (Node × SiblingPosition)}

theorem getElem?_record :
    (known.record scope found)[(node, other)]? =
      if scope = other then ((found.findRev? (·.1 == node)).map (·.2)).or known[(node, other)]?
      else known[(node, other)]? := by
  induction found generalizing known with
  | nil => simp [record]
  | cons head more ih =>
      have hr : known.record scope (head :: more) =
          record (known.insert (head.1, scope) head.2) scope more := rfl
      rw [hr, ih, Std.HashMap.getElem?_insert, List.findRev?]
      by_cases hs : scope = other
      · subst hs
        cases hf : more.findRev? (·.1 == node) with
        | some place => simp
        | none => by_cases hn : head.1 = node <;> simp [hn]
      · simp [hs]

theorem faithful_empty (scene : Scene) : Faithful scene {} := by
  intro node scope place hk
  simp at hk

end Positions

section Places

variable {tree : Tree} {exactNames : Bool} {scope : Scope} {node other : Node}

theorem mem_of_mem_siblingPlaces {entry : Node × SiblingPosition}
    (hm : entry ∈ siblingPlaces tree exactNames scope node) :
    entry.1 ∈ tree.elementSiblings node := by
  cases scope with
  | all =>
      obtain ⟨i, hi, rfl⟩ := List.mem_mapIdx.1 hm
      exact List.getElem_mem hi
  | sameType =>
      obtain ⟨i, hi, rfl⟩ := List.mem_mapIdx.1 hm
      exact (List.of_mem_zip (List.getElem_mem hi)).1

theorem siblingPlaces_congr (h : tree.Consistent) (hm : other ∈ tree.elementSiblings node) :
    siblingPlaces tree exactNames scope other = siblingPlaces tree exactNames scope node := by
  cases scope <;> simp only [siblingPlaces, h.elementSiblings_congr hm]

-- One count serves for all siblings.
theorem countedPlace_of_found (h : tree.Consistent) {entry : Node × SiblingPosition}
    (hf : (siblingPlaces tree exactNames scope node).findRev? (·.1 == other) = some entry) :
    countedPlace tree exactNames scope other = entry.2 := by
  rw [List.findRev?_eq_find?_reverse] at hf
  have he : entry.1 = other := by simpa using List.find?_some hf
  have hm := mem_of_mem_siblingPlaces (List.mem_reverse.1 (List.mem_of_find?_eq_some hf))
  rw [he] at hm
  simp only [countedPlace, siblingPlaces_congr h hm, ownPlace, List.findRev?_eq_find?_reverse, hf]

end Places

namespace Scene

variable {scene : Scene} {matching : Matching α} {next : α → Matching β} {a : α} {b : β}

namespace Gives

theorem pure (a : α) : scene.Gives (Pure.pure a) a := fun _ hk => ⟨rfl, hk⟩

theorem bind (hm : scene.Gives matching a) (hn : scene.Gives (next a) b) :
    scene.Gives (matching >>= next) b := by
  intro known hk
  obtain ⟨ha, hk'⟩ := hm known hk
  have hb := hn _ hk'
  rw [← ha] at hb
  exact hb

theorem ret (f : α → β) (hm : scene.Gives matching a) :
    scene.Gives (do return f (← matching)) (f a) :=
  hm.bind (.pure (f a))

theorem alone_eq (hm : scene.Gives matching a) : matching.alone = a :=
  (hm {} (Positions.faithful_empty scene)).1

theorem alone (hm : scene.Gives matching a) : scene.Gives matching matching.alone :=
  hm.alone_eq ▸ hm

end Gives

-- The position that a tree tells itself counts before the one that its siblings tell.
def place (scene : Scene) (scope : Scope) (node : Node) : SiblingPosition :=
  (toldPosition? scene.tree scope node).getD
    (countedPlace scene.tree scene.exactNames scope node)

theorem position_gives (h : scene.tree.Consistent) (scope : Scope) (node : Node) :
    scene.Gives (scene.position scope node) (scene.place scope node) := by
  intro known hk
  unfold position CssQuery.position place
  cases ht : toldPosition? scene.tree scope node with
  | some told => exact ⟨rfl, hk⟩
  | none =>
      cases hn : known[(node, scope)]? with
      | some place => exact ⟨hk _ _ _ hn, hk⟩
      | none =>
          refine ⟨rfl, fun other scope' place hp => ?_⟩
          change (known.record scope _)[(other, scope')]? = some place at hp
          rw [Positions.getElem?_record] at hp
          by_cases hs : scope = scope'
          · subst hs
            rw [if_pos rfl, Option.or_eq_some_iff] at hp
            rcases hp with hp | ⟨-, hp⟩
            · obtain ⟨entry, hf, rfl⟩ := Option.map_eq_some_iff.1 hp
              exact (countedPlace_of_found h hf).symm
            · exact hk _ _ _ hp
          · rw [if_neg hs] at hp
            exact hk _ _ _ hp

-- The index that a formula is asked about.
def indexAt (scene : Scene) (edge : Edge) (scope : Scope) (node : Node) : Nat :=
  match edge with
  | .first => (scene.place scope node).index
  | .last => (scene.place scope node).fromEnd

theorem indexFrom_gives (h : scene.tree.Consistent) (edge : Edge) (scope : Scope) (node : Node) :
    scene.Gives (scene.indexFrom edge scope node) (scene.indexAt edge scope node) :=
  (position_gives h scope node).bind (by cases edge <;> exact .pure _)

end Scene

end CssQuery
