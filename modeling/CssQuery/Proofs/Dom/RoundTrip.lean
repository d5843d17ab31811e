import CssQuery.Proofs.Dom.Growth

namespace CssQuery

namespace Description

theorem mapM_attribute? (pairs : List (String × String)) :
    (pairs.map fun (name, value) => (name, Json.string value)).mapM attribute? = some pairs := by
  induction pairs with
  | nil => rfl
  | cons pair more ih => simp [ih, attribute?]

theorem attributes?_of_named {attrs : SortedAttributes} {fields : List (String × Json)}
    (h : fieldsNamed "attrs" fields =
      [.object (attrs.pairs.map fun (name, value) => (name, .string value))]) :
    attributes? fields = some attrs := by
  rw [attributes?, h]
  simp only [mapM_attribute?, Option.map_some, SortedAttributes.ofList_pairs]

mutual

theorem ofJson?_toJson : (description : Description) → ofJson? description.toJson = some description
  | element tag attrs children => by
      have hchildren := listOfJson?_listToJson children
      have hattrs : attributes? [("tag", .string tag),
          ("attrs", .object (attrs.pairs.map fun (name, value) => (name, .string value))),
          ("children", .array (listToJson children))] = some attrs :=
        attributes?_of_named (by simp [fieldsNamed])
      rw [toJson, ofJson?, elementOf?, hattrs]
      simp [stringField?, fieldsNamed, childrenFields, hchildren]
  | .text value => by simp [toJson, ofJson?, elementOf?, stringField?, fieldsNamed]
  | .comment value => by simp [toJson, ofJson?, elementOf?, stringField?, fieldsNamed]

theorem listOfJson?_listToJson : (descriptions : List Description) →
    listOfJson? (listToJson descriptions) = some descriptions
  | [] => rfl
  | first :: more => by
      rw [listToJson, listOfJson?, ofJson?_toJson first, listOfJson?_listToJson more]

end

end Description

namespace Dom

open Description

theorem describes_of_grown {dom : Dom} {descriptions : List Description} (hf : Forest dom)
    (h : Grown .new dom root descriptions) :
    dom.size = 1 + countAll descriptions ∧
      dom.descendants root = List.range' 1 (dom.size - 1) ∧
      (dom.children root).map dom.describe = descriptions.map some := by
  have hsize : dom.size = 1 + countAll descriptions := h.size_eq
  have hchildren : dom.children root = starts 1 descriptions := h.children_eq root Nat.one_pos
  refine ⟨hsize, ?_, ?_⟩
  · rw [hf.descendants_eq_flatMap, hchildren, hsize, Nat.add_sub_cancel_left]
    exact hf.descendants_of_showsAll descriptions h.shows
  · rw [hchildren]
    exact hf.describe_of_showsAll descriptions h.shows

-- What is described with all tags is built as it is described, numbered in the order of
-- the document, and is described and written again as it was.
theorem describe_ofDescriptions (layout : Layout) {descriptions : List Description}
    (ht : AllTagged descriptions) :
    ∃ dom, ofDescriptions layout descriptions = .ok dom ∧
      dom.size = 1 + countAll descriptions ∧
      dom.descendants root = List.range' 1 (dom.size - 1) ∧
      (dom.children root).map dom.describe = descriptions.map some ∧
      documentOfJson? (.array (listToJson descriptions)) = some descriptions := by
  have hroot : root < Dom.new.size := Nat.one_pos
  obtain ⟨dom, hload, hgrown⟩ := exists_growAll layout hroot [] 0 descriptions ht
  have hdom : Built dom := built_ofDescriptions hload
  obtain ⟨hsize, horder, hdescribe⟩ := describes_of_grown hdom.forest hgrown
  exact ⟨dom, hload, hsize, horder, hdescribe, listOfJson?_listToJson descriptions⟩

-- A list with classes and texts between two other nodes.
def listing : List Description :=
  [.comment "first", .element "ul" (.ofList [("id", "x"), ("class", "a b")])
    [.element "li" .empty [.text "one"], .text ""], .text "last"]

theorem describe_ofDescriptions_listing : AllTagged listing ∧
    ∃ dom, ofDescriptions .byName listing = .ok dom ∧ dom.size = 7 ∧
      dom.descendants root = [1, 2, 3, 4, 5, 6] ∧
      (dom.children root).map dom.describe = listing.map some ∧
      documentOfJson? (.array (listToJson listing)) = some listing := by
  have ht : AllTagged listing := by simp [listing, AllTagged, Tagged]
  obtain ⟨dom, hload, hsize, horder, hdescribe, hjson⟩ := describe_ofDescriptions .byName ht
  rw [hsize] at horder
  exact ⟨ht, dom, hload, hsize, horder, hdescribe, hjson⟩

end Dom

end CssQuery
