import CssQuery.Proofs.Dom.Attributes
import CssQuery.Proofs.Dom.Contents
import CssQuery.Proofs.Dom.Index
import CssQuery.Proofs.Lists
import Mathlib.Data.List.Nodup

namespace CssQuery

namespace Attributes

variable {a b attrs : Attributes} {name value : String}

-- A name as far as its spelling counts. The attributes of ids and classes have exact names.
def spelling (name : String) : String :=
  if Text.fold name = "id" ∨ Text.fold name = "class" then name else Text.fold name

theorem fold_spelling (name : String) : Text.fold (spelling name) = Text.fold name := by
  rw [spelling]
  split_ifs
  · rfl
  · exact Text.fold_fold name

theorem spelling_eq_iff {exact : String} (hexact : exact = "id" ∨ exact = "class") :
    spelling name = exact ↔ name = exact := by
  have hself : Text.fold exact = exact := by
    rcases hexact with rfl | rfl <;> decide
  rw [spelling]
  split_ifs with hname
  · rfl
  · refine iff_of_false ?_ ?_
    · rintro rfl
      exact hname hexact
    · rintro rfl
      rw [hself] at hname
      exact hname hexact

-- The same pairs, except for letter case in names whose spelling does not count.
def Respelled (a b : Attributes) : Prop :=
  (a.pairs.map (Prod.map spelling id)).Perm (b.pairs.map (Prod.map spelling id))

theorem Respelled.apart (h : a.Respelled b) (ha : a.Apart) : b.Apart := by
  have hfold : ∀ attrs : Attributes, attrs.pairs.map (Text.fold ·.1) =
      (attrs.pairs.map (Prod.map spelling id)).map (Text.fold ·.1) := by
    intro attrs
    rw [List.map_map]
    exact List.map_congr_left fun pair _ => (fold_spelling pair.1).symm
  rw [Apart, hfold] at ha ⊢
  exact (h.map _).nodup_iff.1 ha

theorem Respelled.exists_mem (h : a.Respelled b) (hm : (name, value) ∈ a.pairs) :
    ∃ other, (other, value) ∈ b.pairs ∧ spelling other = spelling name := by
  obtain ⟨⟨other, _⟩, hother, heq⟩ :=
    List.mem_map.1 (h.subset (List.mem_map_of_mem (f := Prod.map spelling id) hm))
  obtain ⟨hs, rfl⟩ := Prod.mk.inj heq
  exact ⟨other, hother, hs⟩

-- An exact name is found under that name alone.
theorem Respelled.get?_eq (h : a.Respelled b) (hexact : name = "id" ∨ name = "class") :
    a.get? name = b.get? name := by
  have hsub : ∀ {a b : Attributes}, a.Respelled b → ∀ value,
      a.get? name = some value → b.get? name = some value := by
    intro a b h value ha
    obtain ⟨other, hm, hs⟩ := h.exists_mem (get?_eq_some_iff.1 ha)
    rw [(spelling_eq_iff hexact).2 rfl, spelling_eq_iff hexact] at hs
    exact get?_eq_some_iff.2 (hs ▸ hm)
  exact Option.ext fun value => ⟨hsub h value, hsub h.symm value⟩

theorem Respelled.getFolded?_eq (h : a.Respelled b) (ha : a.Apart) (name : String) :
    a.getFolded? name = b.getFolded? name := by
  have hsub : ∀ {a b : Attributes}, a.Respelled b → b.Apart → ∀ value,
      a.getFolded? name = some value → b.getFolded? name = some value := by
    intro a b h hb value hv
    obtain ⟨own, hm, hown⟩ := exists_of_getFolded? hv
    obtain ⟨other, hother, hs⟩ := h.exists_mem hm
    refine hb.getFolded?_eq_some_iff.2 ⟨other, hother, ?_⟩
    rw [← fold_spelling, hs, fold_spelling, hown]
  exact Option.ext fun value => ⟨hsub h (h.apart ha) value, hsub h.symm ha value⟩

end Attributes

-- The same content, except for letter case in names whose spelling does not count.
inductive Content.Respelled : Content → Content → Prop
  | refl (content : Content) : Respelled content content
  | element {tag other : String} {attrs others : Attributes}
      (htag : Text.fold tag = Text.fold other) (hattrs : attrs.Respelled others) :
      Respelled (.element tag attrs) (.element other others)

namespace Dom

-- Each node of one document has its place in the other, with the same links and the same
-- content, except for letter case in names whose spelling does not count.
structure Respelled (d e : Dom) (place : Node → Node) : Prop where
  parent : ∀ node, e.parent (place node) = (d.parent node).map place
  children : ∀ node, e.children (place node) = (d.children node).map place
  content : ∀ node, Option.Rel Content.Respelled (d.content? node) (e.content? (place node))

-- Nodes that were never made have no links and no content.
theorem Respelled.of_lt {d e : Dom} {place : Node → Node}
    (hout : ∀ node, d.size ≤ node → e.size ≤ place node)
    (hin : ∀ node < d.size, e.parent (place node) = (d.parent node).map place ∧
      e.children (place node) = (d.children node).map place ∧
      Option.Rel Content.Respelled (d.content? node) (e.content? (place node))) :
    d.Respelled e place := by
  have hall : ∀ node, e.parent (place node) = (d.parent node).map place ∧
      e.children (place node) = (d.children node).map place ∧
      Option.Rel Content.Respelled (d.content? node) (e.content? (place node)) := by
    intro node
    rcases Nat.lt_or_ge node d.size with hlt | hge
    · exact hin node hlt
    · have hplace := hout node hge
      rw [parent_eq_none d hge, parent_eq_none e hplace, children_eq_nil d hge,
        children_eq_nil e hplace, content?_eq_none hge, content?_eq_none hplace]
      exact ⟨rfl, rfl, .none⟩
  exact ⟨fun node => (hall node).1, fun node => (hall node).2.1, fun node => (hall node).2.2⟩

namespace Respelled

variable {d e : Dom} {place : Node → Node} (h : d.Respelled e place)

include h

theorem element? (node : Node) :
    Option.Rel (fun x y => Text.fold x.1 = Text.fold y.1 ∧ x.2.Respelled y.2)
      (d.element? node) (e.element? (place node)) := by
  rw [Dom.element?, Dom.element?]
  have hc := h.content node
  cases hd : d.content? node with
  | none =>
      rw [hd] at hc
      rw [eq_none_of_rel_none hc]
      exact .none
  | some content =>
      rw [hd] at hc
      obtain ⟨other, he, hr⟩ := exists_of_rel_some hc
      rw [he]
      cases hr with
      | refl =>
          cases content with
          | element tag attrs => exact .some ⟨rfl, .refl _⟩
          | _ => exact .none
      | element htag hattrs => exact .some ⟨htag, hattrs⟩

theorem isElement (node : Node) : d.isElement node = e.isElement (place node) := by
  have hr := h.element? node
  rw [Dom.isElement, Dom.isElement, ← Option.not_isNone, ← Option.not_isNone, isNone_eq_of_rel hr]

theorem fold_localName (node : Node) :
    (d.localName node).map Text.fold = (e.localName (place node)).map Text.fold := by
  rw [localName, localName, Option.map_map, Option.map_map, Option.map_eq_bind, Option.map_eq_bind]
  exact bind_eq_of_rel (h.element? node) fun _ _ _ hxy => congrArg some hxy.1

theorem attr {name : String} (hexact : name = "id" ∨ name = "class") (node : Node) :
    d.attr node name = e.attr (place node) name :=
  bind_eq_of_rel (h.element? node) fun _ _ _ hxy => hxy.2.get?_eq hexact

theorem foldedAttr (hapart : d.NamesApart) (name : String) (node : Node) :
    d.foldedAttr node name = e.foldedAttr (place node) name :=
  bind_eq_of_rel (h.element? node) fun _ _ hx hxy => hxy.2.getFolded?_eq (hapart node _ _ hx) name

theorem isEmpty (node : Node) : d.isEmpty node = e.isEmpty (place node) := by
  have hblank : ∀ child, (d.content? child).any isBlankContent =
      (e.content? (place child)).any isBlankContent := by
    intro child
    apply any_eq_of_rel (h.content child)
    intro x y hxy
    cases hxy <;> rfl
  rw [Dom.isEmpty, Dom.isEmpty, h.children, List.all_map]
  exact congrArg (List.all _) (funext hblank)

variable (hd : d.Forest) (he : e.Forest)

include hd he

-- The siblings of a node have their places among those of its place.
theorem siblings (node : Node) :
    e.toTree.preceding (place node) = (d.toTree.preceding node).map place ∧
      e.toTree.following (place node) = (d.toTree.following node).map place := by
  have hparent := h.parent node
  cases hp : d.parent node with
  | none =>
      rw [hp] at hparent
      obtain ⟨hdprev, hdnext⟩ : d.toTree.prevSibling node = none ∧
          d.toTree.nextSibling node = none := hd.alone node hp
      obtain ⟨heprev, henext⟩ : e.toTree.prevSibling (place node) = none ∧
          e.toTree.nextSibling (place node) = none := he.alone (place node) hparent
      constructor
      · rw [Tree.preceding, Tree.preceding, walk_eq_nil hdprev, walk_eq_nil heprev]
        rfl
      · rw [Tree.following, Tree.following, walk_eq_nil hdnext, walk_eq_nil henext]
        rfl
  | some p =>
      obtain ⟨before, after, hdc⟩ := List.append_of_mem ((hd.parent_iff node p).1 hp)
      have hec : e.children (place p) = before.map place ++ place node :: after.map place := by
        rw [h.children, hdc, List.map_append, List.map_cons]
      constructor
      · rw [hd.preceding_of_children hdc, he.preceding_of_children hec, List.map_reverse]
      · rw [hd.following_of_children hdc, he.following_of_children hec]

end Respelled

end Dom

end CssQuery
