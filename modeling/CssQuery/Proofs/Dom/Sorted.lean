import CssQuery.Proofs.Dom.Attributes
import CssQuery.Proofs.Dom.Forest

namespace CssQuery

-- Content with its attributes in the order of their names.
def Content.sort : Content → Content
  | .element tag attrs => .element tag attrs.sort.toAttributes
  | content => content

def NodeRecord.sort (record : NodeRecord) : NodeRecord :=
  { record with content := record.content.sort }

namespace Dom

-- The same document with all attributes in the order of their names.
def sort (dom : Dom) : Dom := { dom with records := dom.records.map NodeRecord.sort }

variable (dom : Dom) (node parent child : Node) (content : Content)

theorem get?_sort : dom.sort.get? node = (dom.get? node).map NodeRecord.sort :=
  Array.getElem?_map

@[simp] theorem size_sort : dom.sort.size = dom.size := Array.size_map ..

@[simp] theorem parent_sort : dom.sort.parent node = dom.parent node := by
  simp only [Dom.parent, get?_sort, Option.bind_map]
  rfl

@[simp] theorem children_sort : dom.sort.children node = dom.children node := by
  simp only [children, get?_sort, Option.map_map]
  rfl

@[simp] theorem firstChild_sort : dom.sort.firstChild node = dom.firstChild node := by
  rw [firstChild, firstChild, children_sort]

@[simp] theorem nextSibling_sort : dom.sort.nextSibling node = dom.nextSibling node := by
  simp only [nextSibling, get?_sort, Option.bind_map]
  rfl

@[simp] theorem prevSibling_sort : dom.sort.prevSibling node = dom.prevSibling node := by
  simp only [prevSibling, get?_sort, Option.bind_map]
  rfl

@[simp] theorem content?_sort : dom.sort.content? node = (dom.content? node).map Content.sort := by
  simp only [content?, get?_sort, Option.map_map]
  rfl

theorem element?_sort : dom.sort.element? node =
    (dom.element? node).map fun element => (element.1, element.2.sort.toAttributes) := by
  simp only [element?, content?_sort]
  cases dom.content? node with
  | none => rfl
  | some content => cases content <;> rfl

@[simp] theorem isElement_sort : dom.sort.isElement node = dom.isElement node := by
  rw [isElement, isElement, element?_sort, Option.isSome_map]

@[simp] theorem localName_sort : dom.sort.localName node = dom.localName node := by
  rw [localName, localName, element?_sort, Option.map_map]
  rfl

@[simp] theorem text_sort : dom.sort.text node = dom.text node := by
  simp only [text, content?_sort]
  cases dom.content? node with
  | none => rfl
  | some content => cases content <;> rfl

-- A name in its own letters is found in any order.
@[simp] theorem attr_sort (name : String) : dom.sort.attr node name = dom.attr node name := by
  rw [attr, attr, element?_sort, Option.bind_map]
  exact congrArg _ (funext fun element => Attributes.get?_eq_of_perm element.2.sort_perm name)

@[simp] theorem hasClass_sort (name : String) :
    dom.sort.hasClass node name = dom.hasClass node name := by
  rw [hasClass, hasClass, classes, classes, attr_sort]

theorem isBlankContent_sort : isBlankContent content.sort = isBlankContent content := by
  cases content <;> rfl

@[simp] theorem isEmpty_sort : dom.sort.isEmpty node = dom.isEmpty node := by
  simp only [isEmpty, children_sort, content?_sort, Option.any_map, isBlankContent_sort]

@[simp] theorem describeWithin_sort (depth : Nat) :
    dom.sort.describeWithin depth node = dom.describeWithin depth node := by
  induction depth generalizing node with
  | zero => rfl
  | succ depth ih =>
      simp only [describeWithin, content?_sort, children_sort, funext ih]
      cases dom.content? node with
      | none => rfl
      | some content => cases content <;> simp [Content.sort, Attributes.sort_toAttributes]

@[simp] theorem describe_sort : dom.sort.describe node = dom.describe node := by
  rw [describe, describe, size_sort, describeWithin_sort]

variable {dom}

-- Where names differ in more than letter case, they are found in any order as well.
theorem NamesApart.foldedAttr_eq {d e : Dom} {a b : Node} (h : d.NamesApart)
    (hsame : d.sort.element? a = e.sort.element? b) (name : String) :
    d.foldedAttr a name = e.foldedAttr b name := by
  rw [element?_sort, element?_sort] at hsame
  rw [foldedAttr, foldedAttr]
  cases hd : d.element? a with
  | none =>
      rw [hd, Option.map_none, eq_comm, Option.map_eq_none_iff] at hsame
      rw [hsame]
  | some element =>
      rw [hd, Option.map_some, eq_comm, Option.map_eq_some_iff] at hsame
      obtain ⟨other, he, hsorted⟩ := hsame
      have hpairs := congrArg (·.2.pairs) hsorted
      have hperm : element.2.pairs.Perm other.2.pairs :=
        element.2.sort_perm.symm.trans (.trans (.of_eq hpairs.symm) other.2.sort_perm)
      rw [he]
      exact (h a element.1 element.2 hd).getFolded?_eq_of_perm hperm name

theorem NamesApart.foldedAttr_sort (h : dom.NamesApart) (name : String) :
    dom.sort.foldedAttr node name = dom.foldedAttr node name := by
  have hsame : dom.sort.element? node = dom.sort.sort.element? node := by
    simp [element?_sort, Function.comp_def, Attributes.sort_toAttributes]
  exact (h.foldedAttr_eq hsame name).symm

-- Whoever asks a tree for the names and links of its nodes is told the same by both.
theorem NamesApart.toTree_sort (h : dom.NamesApart) : dom.sort.toTree = dom.toTree := by
  have hfolded : dom.sort.foldedAttr = dom.foldedAttr :=
    funext fun node => funext (h.foldedAttr_sort node)
  have hattr : dom.sort.attr = dom.attr := funext fun node => funext (dom.attr_sort node)
  have hclass : dom.sort.hasClass = dom.hasClass :=
    funext fun node => funext (dom.hasClass_sort node)
  have hid : dom.sort.id = dom.id := funext fun node => congrFun (congrFun hattr node) "id"
  have hindex : dom.sort.elementsWithId = dom.elementsWithId := rfl
  simp only [toTree, size_sort, funext dom.isElement_sort, funext dom.localName_sort,
    funext dom.text_sort, funext dom.parent_sort, funext dom.firstChild_sort,
    funext dom.nextSibling_sort, funext dom.prevSibling_sort, funext dom.isEmpty_sort, hfolded,
    hattr, hclass, hid, hindex]

theorem namesApart_sort : dom.sort.NamesApart ↔ dom.NamesApart := by
  have happly : ∀ attrs : Attributes, attrs.sort.toAttributes.Apart ↔ attrs.Apart := fun attrs =>
    ⟨.of_perm attrs.sort_perm, .of_perm attrs.sort_perm.symm⟩
  simp only [NamesApart, element?_sort, Option.map_eq_some_iff, Prod.exists, Prod.mk.injEq]
  constructor
  · intro h node tag attrs he
    exact (happly attrs).1 (h node tag _ ⟨tag, attrs, he, rfl, rfl⟩)
  · rintro h node _ _ ⟨tag, attrs, he, rfl, rfl⟩
    exact (happly attrs).2 (h node tag attrs he)

section Load

variable (dom)

theorem eq_of_get? {d e : Dom} (h : ∀ node, d.get? node = e.get? node)
    (hindex : d.index = e.index) : d = e := by
  have hrecords : d.records = e.records := Array.ext_getElem? h
  cases d
  cases e
  cases hrecords
  cases hindex
  rfl

theorem sort_create : (dom.create content).2.sort = (dom.sort.create content.sort).2 := by
  simp [create, sort, NodeRecord.sort]

-- Linking does not look at content, and changes none.
theorem sort_link : (dom.link parent child).sort = dom.sort.link parent child := by
  refine eq_of_get? (fun node => ?_) ?_
  · rw [get?_sort, get?_link, get?_link, get?_sort, children_sort, Option.map_map, Option.map_map]
    rfl
  · exact (index_link ..).trans (index_link ..).symm

theorem sort_adopt : dom.sort.adopt parent content.sort =
    (dom.size, (dom.adopt parent content).2.sort) := by
  simp only [adopt, sort_link, sort_create]
  simp [create]

variable (layout : Layout)

mutual

-- What grows under any layout grows in the order of names once it is sorted.
theorem grow_sort (dom : Dom) (parent : Node) (path : List Nat) : (description : Description) →
    (dom.grow layout parent path description).map sort =
      dom.sort.grow .byName parent path description
  | .element tag attrs children => by
      rw [grow, grow]
      split
      · rfl
      · have hcontent : (Content.element tag (layout.fill dom.size attrs)).sort =
            .element tag (Layout.byName.fill dom.sort.size attrs) := by
          rw [Content.sort, layout.sort_fill]
          rfl
        rw [← hcontent, sort_adopt]
        exact growAll_sort _ dom.size path 0 children
  | .text text => by
      have hadopt := congrArg Prod.snd (sort_adopt dom parent (.text text))
      exact congrArg Except.ok hadopt.symm
  | .comment text => by
      have hadopt := congrArg Prod.snd (sort_adopt dom parent (.comment text))
      exact congrArg Except.ok hadopt.symm

theorem growAll_sort (dom : Dom) (parent : Node) (path : List Nat) (place : Nat) :
    (descriptions : List Description) →
    (dom.growAll layout parent path place descriptions).map sort =
      dom.sort.growAll .byName parent path place descriptions
  | [] => rfl
  | first :: more => by
      rw [growAll, growAll, ← grow_sort dom parent (path ++ [place]) first]
      cases dom.grow layout parent (path ++ [place]) first with
      | error error => rfl
      | ok grown => exact growAll_sort grown parent path (place + 1) more

end

theorem sort_load (read : String → Except Json.Error (List Description)) (text : String) :
    (load layout read text).map sort = load .byName read text := by
  have hnew : new.sort = new := by simp [new, sort, NodeRecord.sort, Content.sort]
  rw [load, load]
  cases read text with
  | error error => rfl
  | ok descriptions =>
      have hgrow := growAll_sort layout new root [] 0 descriptions
      rw [hnew] at hgrow
      exact hgrow

end Load

end Dom

end CssQuery
