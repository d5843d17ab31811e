import CssQuery.Proofs.Dom.RoundTrip
import CssQuery.Proofs.Dom.Sorted
import CssQuery.Proofs.Lists

namespace CssQuery

namespace Description

def content : Description → Content
  | .element tag attrs _ => .element tag attrs.toAttributes
  | .text value => .text value
  | .comment value => .comment value

def children : Description → List Description
  | .element _ _ children => children
  | .text _ | .comment _ => []

end Description

namespace Dom

-- What a document says of the nodes at its top.
def described (dom : Dom) : List Description := (dom.children root).filterMap dom.describe

-- A document properly built in which, below the root, only elements have children.
structure Orderly (dom : Dom) : Prop where
  built : dom.Built
  whole : dom.Whole
  leafy : ∀ node ∈ dom.descendants root, dom.isElement node = true ∨ dom.children node = []

-- Nodes that stand in the same place of two documents, counted down from the root.
inductive Twins (d e : Dom) : Node → Node → Prop
  | top : Twins d e root root
  | child {a b x y : Node} (h : Twins d e a b) (hm : (x, y) ∈ (d.children a).zip (e.children b)) :
      Twins d e x y

-- Nodes of which two documents say the same, and of whose children they do. Neither tells the
-- order that its attributes came in.
structure SaidAlike (d e : Dom) (a b : Node) : Prop where
  content : d.sort.content? a = e.sort.content? b
  children : (d.children a).map d.describe = (e.children b).map e.describe

variable {dom d e : Dom} {a b p x y node : Node} {description : Description}

theorem Forest.content?_of_describe (h : dom.Forest)
    (hdescribe : dom.describe node = some description) :
    dom.sort.content? node = some description.content := by
  rw [h.describe_eq] at hdescribe
  rw [content?_sort]
  cases hc : dom.content? node with
  | none => simp [hc] at hdescribe
  | some content =>
      rw [hc] at hdescribe
      cases content with
      | document => simp at hdescribe
      | _ =>
          obtain rfl := Option.some.inj hdescribe
          rfl

namespace Orderly

variable (h : dom.Orderly)

include h

-- Each child has a description, as it is not the root.
theorem exists_describe (hm : node ∈ dom.children p) :
    ∃ description, dom.describe node = some description := by
  obtain ⟨content, hc, hd⟩ := h.whole.exists_content h.built.forest hm
  rw [h.built.forest.describe_eq, hc]
  cases content with
  | document => exact absurd rfl hd
  | _ => exact ⟨_, rfl⟩

theorem map_describe (p : Node) : (dom.children p).map dom.describe =
    ((dom.children p).filterMap dom.describe).map some := by
  rw [List.map_filterMap_some_eq_filter_map_isSome, eq_comm, List.filter_eq_self]
  intro found hm
  obtain ⟨child, hchild, rfl⟩ := List.mem_map.1 hm
  obtain ⟨description, hdescribe⟩ := h.exists_describe hchild
  rw [hdescribe, Option.isSome_some]

-- The children of a node are those of its description.
theorem children_of_describe (hbelow : node ∈ dom.descendants root)
    (hdescribe : dom.describe node = some description) :
    (dom.children node).map dom.describe = description.children.map some := by
  rw [h.built.forest.describe_eq] at hdescribe
  cases hc : dom.content? node with
  | none => simp [hc] at hdescribe
  | some content =>
      rw [hc] at hdescribe
      cases content with
      | document => simp at hdescribe
      | element tag attrs =>
          obtain rfl := Option.some.inj hdescribe
          exact h.map_describe node
      | text | comment =>
          obtain rfl := Option.some.inj hdescribe
          have he : ¬ dom.isElement node = true := by simp [isElement, element?, hc]
          rw [(h.leafy node hbelow).resolve_left he]
          rfl

end Orderly

-- A document that is loaded is orderly, and described as it was before.
theorem exists_orderly (layout : Layout) {descriptions : List Description}
    (ht : Description.AllTagged descriptions) :
    ∃ dom, ofDescriptions layout descriptions = .ok dom ∧ dom.Orderly ∧
      dom.described = descriptions := by
  have hroot : root < Dom.new.size := Nat.one_pos
  obtain ⟨dom, hload, hgrown⟩ := exists_growAll layout hroot [] 0 descriptions ht
  have hbuilt := built_ofDescriptions hload
  obtain ⟨hsize, horder, hdescribe⟩ := describes_of_grown hbuilt.forest hgrown
  refine ⟨dom, hload, ⟨hbuilt, whole_ofDescriptions hload, ?_⟩, ?_⟩
  · intro node hm
    rw [horder, List.mem_range'_1] at hm
    have hshows : dom.ShowsAll 1 descriptions := hgrown.shows
    exact hshows.leafy descriptions hm.1 (by omega)
  · have hfilter := congrArg (List.filterMap fun found => found) hdescribe
    simpa [List.filterMap_map, Function.comp_def, described] using hfilter

-- A child of a node inside the document is part of the document.
theorem Forest.mem_descendants_of_child (h : dom.Forest) (hm : x ∈ dom.children a)
    (ha : a = root ∨ a ∈ dom.descendants root) : x ∈ dom.descendants root := by
  have hp : dom.toTree.Below x a := .of_parent ((h.parent_iff x a).2 hm)
  have hin : dom.toTree.Inside a root := ha.imp_right h.mem_descendants.1
  exact h.mem_descendants.2 (hp.of_inside hin)

namespace Twins

section Orderly

variable (hd : d.Orderly) (he : e.Orderly)

include hd he

theorem part_of (h : Twins d e a b) : (a = Dom.root ∨ a ∈ d.descendants Dom.root) ∧
    (b = Dom.root ∨ b ∈ e.descendants Dom.root) := by
  induction h with
  | top => exact ⟨.inl rfl, .inl rfl⟩
  | child _ hm ih =>
      obtain ⟨hx, hy⟩ := List.of_mem_zip hm
      exact ⟨.inr (hd.built.forest.mem_descendants_of_child hx ih.1),
        .inr (he.built.forest.mem_descendants_of_child hy ih.2)⟩

-- The parents of nodes in the same place are in the same place.
theorem parent (h : Twins d e x y) : Option.Rel (Twins d e) (d.parent x) (e.parent y) := by
  cases h with
  | top =>
      rw [hd.whole.parent_root, he.whole.parent_root]
      exact .none
  | @child a b _ _ h hm =>
      obtain ⟨hx, hy⟩ := List.of_mem_zip hm
      rw [(hd.built.forest.parent_iff x a).2 hx, (he.built.forest.parent_iff y b).2 hy]
      exact .some h

variable (hsame : d.described = e.described)

include hsame

-- Where two documents are described alike, they say the same of nodes in the same place.
theorem saidAlike (h : Twins d e a b) : SaidAlike d e a b := by
  induction h with
  | top =>
      refine ⟨?_, ?_⟩
      · simp [hd.built.content?_root, he.built.content?_root]
      rw [hd.map_describe, he.map_describe]
      exact congrArg (List.map some) hsame
  | child h hm ih =>
      obtain ⟨hx, hy⟩ := List.of_mem_zip hm
      obtain ⟨ha, hb⟩ := h.part_of hd he
      have hxin := hd.built.forest.mem_descendants_of_child hx ha
      have hyin := he.built.forest.mem_descendants_of_child hy hb
      obtain ⟨description, hxs⟩ := hd.exists_describe hx
      have hys := (eq_of_mem_zip ih.children hm).symm.trans hxs
      refine ⟨?_, ?_⟩
      · rw [hd.built.forest.content?_of_describe hxs, he.built.forest.content?_of_describe hys]
      · rw [hd.children_of_describe hxin hxs, he.children_of_describe hyin hys]

theorem children (h : Twins d e a b) : List.Forall₂ (Twins d e) (d.children a) (e.children b) := by
  have hlength := congrArg List.length (h.saidAlike hd he hsame).children
  rw [List.length_map, List.length_map] at hlength
  exact List.forall₂_iff_zip.2 ⟨hlength, fun hm => .child h hm⟩

-- Siblings on either side are in the same places.
theorem siblings (h : Twins d e x y) :
    List.Forall₂ (Twins d e) (d.toTree.preceding x) (e.toTree.preceding y) ∧
      List.Forall₂ (Twins d e) (d.toTree.following x) (e.toTree.following y) := by
  have hdf := hd.built.forest
  have hef := he.built.forest
  cases h with
  | top =>
      obtain ⟨hdprev, hdnext⟩ : d.toTree.prevSibling Dom.root = none ∧
          d.toTree.nextSibling Dom.root = none := hdf.alone Dom.root hd.whole.parent_root
      obtain ⟨heprev, henext⟩ : e.toTree.prevSibling Dom.root = none ∧
          e.toTree.nextSibling Dom.root = none := hef.alone Dom.root he.whole.parent_root
      constructor
      · rw [Tree.preceding, Tree.preceding, walk_eq_nil hdprev, walk_eq_nil heprev]
        exact .nil
      · rw [Tree.following, Tree.following, walk_eq_nil hdnext, walk_eq_nil henext]
        exact .nil
  | child h hm =>
      obtain ⟨before, after, front, rest, hdc, hec, hbefore, hafter⟩ :=
        exists_split_of_mem_zip (h.children hd he hsame) hm
      constructor
      · rw [hdf.preceding_of_children hdc, hef.preceding_of_children hec]
        exact List.forall₂_reverse_iff.2 hbefore
      · rw [hdf.following_of_children hdc, hef.following_of_children hec]
        exact hafter

theorem descendantsWithin (depth : Nat) (h : Twins d e a b) :
    List.Forall₂ (Twins d e) (d.descendantsWithin depth a) (e.descendantsWithin depth b) := by
  induction depth generalizing a b with
  | zero => exact .nil
  | succ depth ih =>
      exact List.rel_flatMap (h.children hd he hsame) fun x y hxy => .cons hxy (ih hxy)

-- All descendants of the documents are in the same places, one by one.
theorem descendants :
    List.Forall₂ (Twins d e) (d.descendants Dom.root) (e.descendants Dom.root) := by
  have hwithin := Twins.top.descendantsWithin hd he hsame (d.size + e.size)
  rwa [hd.built.forest.descendantsWithin_of_le (Nat.le_add_right _ _),
    he.built.forest.descendantsWithin_of_le (Nat.le_add_left _ _)] at hwithin

end Orderly

end Twins

end Dom

end CssQuery
