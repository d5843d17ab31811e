import CssQuery.Proofs.Dom.Described

namespace CssQuery.Dom

variable (dom : Dom) (id : String)

-- Each element goes to the end of the list of its id.
theorem getElem?_indexElement (index : IdIndex) (node : Node) :
    ((dom.indexElement index node)[id]?).getD [] =
      (index[id]?).getD [] ++ if dom.id node = some id then [node] else [] := by
  unfold indexElement
  cases hid : dom.id node with
  | none => simp
  | some own =>
      by_cases ho : own = id
      · simp [ho]
      · simp [Std.HashMap.getElem?_alter, ho]

theorem getElem?_foldl_indexElement (index : IdIndex) (nodes : List Node) :
    ((nodes.foldl dom.indexElement index)[id]?).getD [] =
      (index[id]?).getD [] ++ nodes.filter fun node => dom.id node = some id := by
  induction nodes generalizing index with
  | nil => simp
  | cons node more ih =>
      rw [List.foldl_cons, ih, getElem?_indexElement, List.append_assoc]
      by_cases hid : dom.id node = some id <;> simp [hid]

-- An index that was just built gives the elements of an id that lie below the document,
-- in document order.
theorem elementsWithId_buildIndex : dom.buildIndex.elementsWithId id =
      some ((dom.descendants root).filter fun node => dom.id node = some id) := by
  have hindex := getElem?_foldl_indexElement dom id {} (dom.descendants root)
  rw [elementsWithId, buildIndex, Option.map_some, hindex]
  simp

variable {dom} {next : Dom} {node : Node}

theorem element?_congr {other : Node} (hc : next.content? other = dom.content? node) :
    next.element? other = dom.element? node := by
  rw [element?, element?, hc]

theorem descendantsWithin_congr (hchildren : next.children = dom.children) (depth : Nat)
    (node : Node) : next.descendantsWithin depth node = dom.descendantsWithin depth node := by
  induction depth generalizing node with
  | zero => rfl
  | succ depth ih =>
      have hbelow : next.descendantsWithin depth = dom.descendantsWithin depth := funext ih
      rw [descendantsWithin, descendantsWithin, hchildren, hbelow]

theorem Forest.lt_of_mem_descendants (h : Forest dom) {parent : Node}
    (hm : node ∈ dom.descendants parent) : node < dom.size := by
  obtain ⟨p, hp, -⟩ := Tree.below_iff.1 (h.mem_descendants.1 hm)
  exact h.lt_size p node ((h.parent_iff node p).1 hp)

-- A new node is not part of the document, so it does not matter to an index.
theorem listed_create (h : Forest dom) (content : Content) (id : String) :
    ((dom.create content).2.descendants root).filter
        (fun node => (dom.create content).2.id node = some id) =
      (dom.descendants root).filter fun node => dom.id node = some id := by
  have hchildren : (dom.create content).2.children = dom.children :=
    funext fun node => (links_create content node).2.1
  have hdescendants : (dom.create content).2.descendants root = dom.descendants root := by
    rw [descendants, descendantsWithin_congr hchildren, size_create]
    exact h.descendantsWithin_of_le (Nat.le_succ _) root
  rw [hdescendants]
  refine List.filter_congr fun node hm => ?_
  have hcontent : (dom.create content).2.content? node = dom.content? node := by
    rw [content?_create, if_neg (h.lt_of_mem_descendants hm).ne]
  rw [Dom.id, attr, element?_congr hcontent]
  rfl

theorem index_setAttribute (node : Node) (name value : String) :
    (dom.setAttribute node name value).2.index = none := by
  rw [setAttribute]
  split <;> rfl

-- The index answers for each id with its elements below the document, as a walk meets them.
def Listed (dom : Dom) : Prop := ∀ id, dom.elementsWithId id =
    some ((dom.descendants root).filter fun node => dom.id node = some id)

theorem Listed.create (hl : dom.Listed) (h : Forest dom) (content : Content) :
    (dom.create content).2.Listed := by
  intro id
  rw [listed_create h]
  exact hl id

theorem listed_buildIndex (dom : Dom) : dom.buildIndex.Listed := by
  intro id
  have hchildren : dom.buildIndex.children = dom.children := rfl
  have hdescendants : dom.buildIndex.descendants root = dom.descendants root :=
    descendantsWithin_congr hchildren dom.size root
  rw [elementsWithId_buildIndex, hdescendants]
  rfl

-- Whatever may have changed what is indexed has dropped the index.
theorem Built.indexed (h : Built dom) : dom.index = none ∨ dom.Listed := by
  induction h with
  | new => exact .inl rfl
  | create h content ih => exact ih.imp_right fun hlisted => hlisted.create h.forest content
  | append _ _ _ _ happend _ =>
      obtain ⟨-, -, rfl⟩ := append?_eq_some.1 happend
      exact .inl (index_link _ _)
  | setAttribute _ node name value _ => exact .inl (index_setAttribute node name value)
  | buildIndex _ _ => exact .inr (listed_buildIndex _)

end CssQuery.Dom
