import CssQuery.Proofs.Dom.Attributes
import CssQuery.Proofs.Dom.Described
import CssQuery.Proofs.Dom.Load
import Mathlib.Data.List.Range

namespace CssQuery

namespace Description

mutual

-- How many nodes are described, at all depths.
def count : Description → Nat
  | .element _ _ children => countAll children + 1
  | .text _ | .comment _ => 1

def countAll : List Description → Nat
  | [] => 0
  | first :: more => first.count + countAll more

end

mutual

-- No element that is described lacks a tag.
def Tagged : Description → Prop
  | .element tag _ children => tag ≠ "" ∧ AllTagged children
  | .text _ | .comment _ => True

def AllTagged : List Description → Prop
  | [] => True
  | first :: more => first.Tagged ∧ AllTagged more

end

-- The numbers of described nodes if they are numbered from a given one on, each before
-- what lies below it.
def starts (start : Nat) : List Description → List Node
  | [] => []
  | first :: more => start :: starts (start + first.count) more

end Description

namespace Dom

open Description

section Shows

variable (dom : Dom)

mutual

-- From a number on the nodes of a document are those described, each before what lies
-- below it.
def Shows (start : Nat) : Description → Prop
  | .element tag attrs children =>
      (∃ own, dom.content? start = some (.element tag own) ∧ own.sort = attrs) ∧
        dom.children start = starts (start + 1) children ∧ ShowsAll (start + 1) children
  | .text text => dom.content? start = some (.text text) ∧ dom.children start = []
  | .comment text => dom.content? start = some (.comment text) ∧ dom.children start = []

def ShowsAll (start : Nat) : List Description → Prop
  | [] => True
  | first :: more => Shows start first ∧ ShowsAll (start + first.count) more

end

end Shows

variable {dom next : Dom} {parent : Nat}

mutual

-- What a document shows depends on the nodes that show it, and on no others.
theorem Shows.congr {start : Nat} : (description : Description) →
    (∀ node : Nat, start ≤ node → node < start + description.count →
      next.content? node = dom.content? node ∧ next.children node = dom.children node) →
    dom.Shows start description → next.Shows start description
  | .element tag attrs children, hsame, hs => by
      obtain ⟨⟨own, hc, hown⟩, hk, hall⟩ := hs
      rw [count] at hsame
      obtain ⟨hcontent, hchildren⟩ := hsame start le_rfl (by omega)
      refine ⟨⟨own, hcontent.trans hc, hown⟩, hchildren.trans hk, ShowsAll.congr children ?_ hall⟩
      intro node hlo hhi
      exact hsame node (by omega) (by omega)
  | .text text, hsame, hs => by
      obtain ⟨hcontent, hchildren⟩ := hsame start le_rfl (Nat.lt_succ_self _)
      exact ⟨hcontent.trans hs.1, hchildren.trans hs.2⟩
  | .comment text, hsame, hs => by
      obtain ⟨hcontent, hchildren⟩ := hsame start le_rfl (Nat.lt_succ_self _)
      exact ⟨hcontent.trans hs.1, hchildren.trans hs.2⟩

theorem ShowsAll.congr {start : Nat} : (descriptions : List Description) →
    (∀ node : Nat, start ≤ node → node < start + countAll descriptions →
      next.content? node = dom.content? node ∧ next.children node = dom.children node) →
    dom.ShowsAll start descriptions → next.ShowsAll start descriptions
  | [], _, _ => trivial
  | first :: more, hsame, hs => by
      rw [countAll] at hsame
      refine ⟨Shows.congr first ?_ hs.1, ShowsAll.congr more ?_ hs.2⟩
      · intro node hlo hhi
        exact hsame node hlo (by omega)
      · intro node hlo hhi
        exact hsame node (by omega) (by omega)

end

mutual

theorem Forest.describe_of_shows {start : Nat} (h : Forest dom) : (description : Description) →
    dom.Shows start description → dom.describe start = some description
  | .element tag attrs children, hs => by
      obtain ⟨⟨own, hc, rfl⟩, hk, hall⟩ := hs
      have hmap := h.describe_of_showsAll children hall
      have hfilter : (dom.children start).filterMap dom.describe = children := by
        rw [hk, ← Function.id_comp dom.describe, ← List.filterMap_map, hmap, List.filterMap_map]
        exact List.filterMap_some
      rw [h.describe_eq, hc, hfilter]
  | .text text, hs => by rw [h.describe_eq, hs.1]
  | .comment text, hs => by rw [h.describe_eq, hs.1]

theorem Forest.describe_of_showsAll {start : Nat} (h : Forest dom) :
    (descriptions : List Description) → dom.ShowsAll start descriptions →
      (starts start descriptions).map dom.describe = descriptions.map some
  | [], _ => rfl
  | first :: more, hs => by
      have hfirst := h.describe_of_shows first hs.1
      have hmore := h.describe_of_showsAll more hs.2
      rw [starts, List.map_cons, List.map_cons, hfirst, hmore]

end

mutual

theorem Forest.descendants_of_shows {start : Nat} (h : Forest dom) : (description : Description) →
    dom.Shows start description →
      start :: dom.descendants start = List.range' start description.count
  | .element tag attrs children, hs => by
      obtain ⟨-, hk, hall⟩ := hs
      rw [h.descendants_eq_flatMap, hk, h.descendants_of_showsAll children hall, count,
        List.range'_succ]
  | .text text, hs => by
      rw [h.descendants_eq_flatMap, hs.2]
      rfl
  | .comment text, hs => by
      rw [h.descendants_eq_flatMap, hs.2]
      rfl

theorem Forest.descendants_of_showsAll {start : Nat} (h : Forest dom) :
    (descriptions : List Description) → dom.ShowsAll start descriptions →
      ((starts start descriptions).flatMap fun node => node :: dom.descendants node) =
        List.range' start (countAll descriptions)
  | [], _ => rfl
  | first :: more, hs => by
      have hfirst := h.descendants_of_shows first hs.1
      have hmore := h.descendants_of_showsAll more hs.2
      rw [starts, List.flatMap_cons, hfirst, hmore, countAll, List.range'_append_1]

end

mutual

-- Of the nodes that show a description, only elements have children.
theorem Shows.leafy {start node : Nat} : (description : Description) →
    dom.Shows start description → start ≤ node → node < start + description.count →
      dom.isElement node = true ∨ dom.children node = []
  | .element tag attrs children, hs, hlo, hhi => by
      obtain ⟨⟨own, hc, -⟩, -, hall⟩ := hs
      rw [count] at hhi
      by_cases hn : node = start
      · exact .inl (by simp [isElement, element?, hn, hc])
      · exact ShowsAll.leafy children hall (by omega) (by omega)
  | .text text, hs, hlo, hhi => by
      rw [count] at hhi
      obtain rfl : node = start := by omega
      exact .inr hs.2
  | .comment text, hs, hlo, hhi => by
      rw [count] at hhi
      obtain rfl : node = start := by omega
      exact .inr hs.2

theorem ShowsAll.leafy {start node : Nat} : (descriptions : List Description) →
    dom.ShowsAll start descriptions → start ≤ node → node < start + countAll descriptions →
      dom.isElement node = true ∨ dom.children node = []
  | [], _, hlo, hhi => by
      rw [countAll] at hhi
      omega
  | first :: more, hs, hlo, hhi => by
      rw [countAll] at hhi
      by_cases hn : node < start + first.count
      · exact Shows.leafy first hs.1 hlo hn
      · exact ShowsAll.leafy more hs.2 (by omega) (by omega)

end

-- What growing makes of a document: the new nodes stand below a parent and show what
-- was described, and all else is as it was.
structure Grown (dom next : Dom) (parent : Nat) (descriptions : List Description) : Prop where
  size_eq : next.size = dom.size + countAll descriptions
  content?_eq : ∀ node < dom.size, next.content? node = dom.content? node
  children_eq : ∀ node < dom.size, next.children node =
    dom.children node ++ if node = parent then starts dom.size descriptions else []
  shows : next.ShowsAll dom.size descriptions

namespace Grown

-- A new node takes the next number, and goes behind the other children of its parent.
theorem adopted (hp : parent < dom.size) {content : Content} {description : Description}
    (hcount : description.count = 1)
    (hs : (dom.adopt parent content).2.Shows dom.size description) :
    Grown dom (dom.adopt parent content).2 parent [description] where
  size_eq := by rw [size_adopt, countAll, hcount]; rfl
  content?_eq node hlt := by rw [content?_adopt, if_neg hlt.ne]
  children_eq node _ := by rw [children_adopt hp]; rfl
  shows := ⟨hs, trivial⟩

-- What grows below a new element leaves the other nodes alone.
theorem around {tag : String} {own : Attributes} {children : List Description}
    (hp : parent < dom.size)
    (h : Grown (dom.adopt parent (.element tag own)).2 next dom.size children) :
    Grown dom next parent [.element tag own.sort children] := by
  have hsize := size_adopt dom parent (.element tag own)
  have hnew := lt_size_adopt dom parent (.element tag own)
  refine ⟨?_, ?_, ?_, ⟨⟨own, ?_, rfl⟩, ?_, ?_⟩, trivial⟩
  · rw [h.size_eq, hsize, countAll, countAll, count]
    omega
  · intro node hlt
    rw [h.content?_eq node (by omega), content?_adopt, if_neg hlt.ne]
  · intro node hlt
    rw [h.children_eq node (by omega), if_neg hlt.ne, List.append_nil, children_adopt hp]
    rfl
  · rw [h.content?_eq dom.size hnew, content?_adopt, if_pos rfl]
  · rw [h.children_eq dom.size hnew, if_pos rfl, children_adopt hp, if_neg hp.ne',
      children_eq_nil dom le_rfl, hsize]
    rfl
  · exact hsize ▸ h.shows

theorem nil (dom : Dom) (parent : Nat) : Grown dom dom parent [] where
  size_eq := rfl
  content?_eq _ _ := rfl
  children_eq node _ := by simp [starts]
  shows := trivial

-- What is shown already is not disturbed by later siblings.
theorem cons {middle : Dom} {first : Description} {more : List Description}
    (hp : parent < dom.size) (hfirst : Grown dom middle parent [first])
    (hmore : Grown middle next parent more) : Grown dom next parent (first :: more) := by
  have hsize : middle.size = dom.size + first.count := hfirst.size_eq
  refine ⟨?_, ?_, ?_, ?_, ?_⟩
  · rw [hmore.size_eq, hsize, countAll]
    omega
  · intro node hlt
    rw [hmore.content?_eq node (by omega), hfirst.content?_eq node hlt]
  · intro node hlt
    rw [hmore.children_eq node (by omega), hfirst.children_eq node hlt, hsize]
    split <;> simp [starts]
  · refine Shows.congr first (fun node hlo hhi => ?_) hfirst.shows.1
    have hlt : node < middle.size := by omega
    refine ⟨hmore.content?_eq node hlt, ?_⟩
    rw [hmore.children_eq node hlt, if_neg (by omega), List.append_nil]
  · exact hsize ▸ hmore.shows

end Grown

mutual

-- Descriptions in which no tag is missing are always built.
theorem exists_grow (layout : Layout) {dom : Dom} {parent : Nat} (hp : parent < dom.size)
    (path : List Nat) : (description : Description) → description.Tagged →
      ∃ next, dom.grow layout parent path description = .ok next ∧
        Grown dom next parent [description]
  | .element tag attrs children, ht => by
      obtain ⟨htag, hchildren⟩ := ht
      have hnew := lt_size_adopt dom parent (.element tag (layout.fill dom.size attrs))
      obtain ⟨next, hgrow, hgrown⟩ := exists_growAll layout hnew path 0 children hchildren
      refine ⟨next, ?_, layout.sort_fill dom.size attrs ▸ hgrown.around hp⟩
      rw [grow, if_neg (by simpa using htag)]
      exact hgrow
  | .text text, _ => by
      refine ⟨_, rfl, .adopted hp rfl ⟨?_, ?_⟩⟩
      · rw [content?_adopt, if_pos rfl]
      · rw [children_adopt hp, if_neg hp.ne', children_eq_nil dom le_rfl]
        rfl
  | .comment text, _ => by
      refine ⟨_, rfl, .adopted hp rfl ⟨?_, ?_⟩⟩
      · rw [content?_adopt, if_pos rfl]
      · rw [children_adopt hp, if_neg hp.ne', children_eq_nil dom le_rfl]
        rfl

theorem exists_growAll (layout : Layout) {dom : Dom} {parent : Nat} (hp : parent < dom.size)
    (path : List Nat) (place : Nat) : (descriptions : List Description) → AllTagged descriptions →
      ∃ next, dom.growAll layout parent path place descriptions = .ok next ∧
        Grown dom next parent descriptions
  | [], _ => ⟨dom, rfl, .nil dom parent⟩
  | first :: more, ht => by
      obtain ⟨middle, hgrow, hfirst⟩ := exists_grow layout hp (path ++ [place]) first ht.1
      have hlt : parent < middle.size := by
        rw [hfirst.size_eq]
        omega
      obtain ⟨next, hall, hmore⟩ := exists_growAll layout hlt path (place + 1) more ht.2
      refine ⟨next, ?_, hfirst.cons hp hmore⟩
      rw [growAll, hgrow]
      exact hall

end

end Dom

end CssQuery
