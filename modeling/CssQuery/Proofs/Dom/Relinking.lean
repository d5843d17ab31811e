import CssQuery.Proofs.Dom.Links
import CssQuery.Proofs.Dom.Load

namespace CssQuery.Dom

-- How often a node stands in the lists of children, all of them taken together.
def listings (dom : Dom) (node : Node) : Nat :=
  ((List.range dom.size).flatMap dom.children).count node

def SameLinks (dom next : Dom) (node : Node) : Prop :=
  next.parent node = dom.parent node ∧ next.children node = dom.children node ∧
    next.nextSibling node = dom.nextSibling node ∧ next.prevSibling node = dom.prevSibling node

-- The nodes whose links have to change for a child to be moved: itself, the parents that it
-- had and gets, the neighbours that it had, and the one that it gets.
def Concerned (dom : Dom) (parent child node : Node) : Prop :=
  node = parent ∨ node = child ∨ dom.parent child = some node ∨
    dom.nextSibling node = some child ∨ dom.prevSibling node = some child ∨
    (dom.children parent).getLast? = some node

-- A child that had a place before is taken out of it, and put behind the last child of its
-- new parent.
structure Moved (dom next : Dom) (parent child : Node) : Prop where
  forest : Forest next
  listings_eq : next.listings child = 1
  getLast?_eq : (next.children parent).getLast? = some child
  neighbours : ∀ x y, dom.nextSibling x = some child → dom.nextSibling child = some y →
    next.nextSibling x = some y ∧ next.prevSibling y = some x
  nextSibling_eq : next.nextSibling child = none
  sameLinks : ∀ node, ¬ dom.Concerned parent child node → dom.SameLinks next node

-- A child that is put behind the last child of a new parent while its old place is left as
-- it was: its old parent lists it and its old neighbours name it, as before. It still names
-- its old next sibling too, or itself, if it was that last child.
structure Stale (dom next : Dom) (former child : Node) (last : Option Node) : Prop where
  listed : child ∈ next.children former
  listings_eq : next.listings child = 2
  next_of_prev : ∀ node, dom.nextSibling node = some child → next.nextSibling node = some child
  prev_of_next : ∀ node, dom.prevSibling node = some child → next.prevSibling node = some child
  nextSibling_eq :
    next.nextSibling child = if last = some child then some child else dom.nextSibling child
  prevSibling_eq : next.prevSibling child = last.or (dom.prevSibling child)

variable {dom next : Dom} {parent child former node : Node}

theorem listings_link (hp : parent < dom.size) :
    (dom.link parent child).listings child = dom.listings child + 1 := by
  obtain ⟨before, after, hs⟩ := List.append_of_mem (List.mem_range.2 hp)
  have hd : (before ++ parent :: after).Nodup := hs ▸ List.nodup_range
  obtain ⟨-, hafter, hbefore⟩ := List.nodup_append.1 hd
  have hsame : ∀ nodes : List Node, parent ∉ nodes →
      nodes.flatMap (dom.link parent child).children = nodes.flatMap dom.children := by
    intro nodes hn
    refine List.flatMap_congr fun node hm => ?_
    have hne : node ≠ parent := fun he => hn (he ▸ hm)
    rw [children_link hp, if_neg hne]
  have hb := hsame before fun hm => hbefore parent hm parent (.head _) rfl
  have ha := hsame after (List.nodup_cons.1 hafter).1
  rw [listings, listings, size_link, hs, List.flatMap_append, List.flatMap_append,
    List.flatMap_cons, List.flatMap_cons, hb, ha, children_link hp, if_pos rfl]
  simp only [List.count_append, List.count_singleton_self]
  omega

namespace Forest

variable (h : Forest dom)

include h

theorem childLists_nodup : ((List.range dom.size).flatMap dom.children).Nodup := by
  refine List.nodup_flatMap.2 ⟨fun parent _ => h.children_nodup parent, ?_⟩
  refine List.nodup_range.imp fun {p q} hne node hp hq => ?_
  have hpar := (h.parent_iff node p).2 hp
  exact hne (Option.some.inj (hpar.symm.trans ((h.parent_iff node q).2 hq)))

theorem listings_of_parent (hp : dom.parent node = some parent) : dom.listings node = 1 := by
  have hm : node ∈ dom.children parent := (h.parent_iff node parent).1 hp
  refine List.count_eq_one_of_mem h.childLists_nodup (List.mem_flatMap.2 ⟨parent, ?_, hm⟩)
  exact List.mem_range.2 (lt_size_of_mem dom hm)

theorem listings_link_of_parent (hp : parent < dom.size) (hq : dom.parent child = some former) :
    (dom.link parent child).listings child = 2 := by
  rw [listings_link hp, h.listings_of_parent hq]

-- No forest comes of a child that is listed already.
theorem not_forest_link (hp : parent < dom.size) (hq : dom.parent child = some former) :
    ¬ Forest (dom.link parent child) := by
  intro hf
  have hm : child ∈ (dom.link parent child).children parent := by
    simp [children_link hp]
  have hone := hf.listings_of_parent ((hf.parent_iff child parent).2 hm)
  simp [h.listings_link_of_parent hp hq] at hone

theorem stale_link (hp : parent < dom.size) (hc : child < dom.size)
    (hq : dom.parent child = some former) :
    Stale dom (dom.link parent child) former child (dom.children parent).getLast? where
  listed := by
    have hm := (h.parent_iff child former).1 hq
    rw [children_link hp]
    split
    · exact List.mem_append_left _ hm
    · exact hm
  listings_eq := h.listings_link_of_parent hp hq
  next_of_prev node hn := by
    rw [nextSibling_link (h.lt_size parent), hn, ite_self]
  prev_of_next node hn := by
    -- The child is the only node to get another previous sibling, and it did not follow itself.
    have hne : node ≠ child := by
      rintro rfl
      obtain ⟨p, before, after, hs⟩ := h.prevSibling_iff.1 hn
      have hd := hs ▸ h.children_nodup p
      simp [List.nodup_append] at hd
    rw [prevSibling_link hc, if_neg hne, hn]
  nextSibling_eq := nextSibling_link (h.lt_size parent)
  prevSibling_eq := by
    rw [prevSibling_link hc, if_pos rfl]

theorem sameLinks_link (hp : parent < dom.size) (hc : child < dom.size)
    (hn : ¬ dom.Concerned parent child node) : dom.SameLinks (dom.link parent child) node := by
  simp only [Concerned, not_or] at hn
  obtain ⟨hnp, hnc, -, -, -, hlast⟩ := hn
  refine ⟨?_, ?_, ?_, ?_⟩
  · rw [parent_link hc, if_neg hnc]
  · rw [children_link hp, if_neg hnp]
  · rw [nextSibling_link (h.lt_size parent), if_neg hlast]
  · rw [prevSibling_link hc, if_neg hnc]

end Forest

-- An append gives a forest again exactly if the child had no parent. The child always goes to
-- the end of the list of its parent, and the links of nodes not concerned stay. A child that
-- had a parent keeps its old place too.
theorem forest_append?_iff (h : Forest dom) (hp : parent < dom.size) (hc : child < dom.size)
    (hself : parent ≠ child) (hbelow : dom.isDescendantOf parent child = false) :
    ∃ next, dom.append? parent child = some next ∧
      (Forest next ↔ dom.parent child = none) ∧
      next.children parent = dom.children parent ++ [child] ∧ next.parent child = some parent ∧
      (∀ node, ¬ dom.Concerned parent child node → dom.SameLinks next node) ∧
      ∀ former, dom.parent child = some former →
        Stale dom next former child (dom.children parent).getLast? := by
  have happend := append?_eq_some.2 ⟨hp, hc, rfl⟩
  refine ⟨_, happend, ⟨?_, ?_⟩, ?_, ?_, fun node => h.sameLinks_link hp hc,
    fun former => h.stale_link hp hc⟩
  · intro hf
    cases hq : dom.parent child with
    | none => rfl
    | some former => exact absurd hf (h.not_forest_link hp hq)
  · intro hfree
    exact h.append hfree hself hbelow happend
  · rw [children_link hp, if_pos rfl]
  · rw [parent_link hc, if_pos rfl]

-- A division with a word in it, and a paragraph after the division.
def worded : Dom :=
  (((Dom.new.adopt root (.element "div" .empty)).2.adopt root (.element "p" .empty)).2.adopt 1
    (.element "b" .empty)).2

theorem built_worded : worded.Built :=
  ((Built.new.adopt (by decide) _).adopt (by decide) _).adopt (by decide) _

-- The word is appended to the paragraph, and is in the division still.
theorem forest_append?_iff_worded : worded.Forest ∧ 2 < worded.size ∧ 3 < worded.size ∧
    worded.isDescendantOf 2 3 = false ∧ worded.parent 3 = some 1 ∧
    ∃ next, worded.append? 2 3 = some next ∧ ¬ Forest next ∧
      3 ∈ next.children 1 ∧ next.children 2 = [3] ∧ next.listings 3 = 2 := by
  have hbelow : worded.isDescendantOf 2 3 = false := rfl
  obtain ⟨next, happend, hforest, hchildren, -, -, hstale⟩ :=
    forest_append?_iff built_worded.forest (by decide) (by decide) (by decide) hbelow
  have hs := hstale 1 rfl
  refine ⟨built_worded.forest, by decide, by decide, hbelow, rfl, next, happend, ?_, hs.listed,
    hchildren, hs.listings_eq⟩
  exact mt hforest.1 (by simp [show worded.parent 3 = some 1 from rfl])

-- Appending does not move a child out of its old place, as the word shows.
theorem not_forall_moved : ¬ ∀ (dom : Dom) (parent child former : Node), Forest dom →
    parent < dom.size → dom.parent child = some former → child ≠ root → parent ≠ child →
    dom.isDescendantOf parent child = false →
    ∃ next, dom.append? parent child = some next ∧ Moved dom next parent child := by
  intro hmoved
  have hforest := built_worded.forest
  obtain ⟨next, happend, hnext⟩ :=
    hmoved worded 2 3 1 hforest (by decide) rfl (by decide) (by decide) rfl
  obtain ⟨-, -, rfl⟩ := append?_eq_some.1 happend
  exact hforest.not_forest_link (by decide) rfl hnext.forest

end CssQuery.Dom
