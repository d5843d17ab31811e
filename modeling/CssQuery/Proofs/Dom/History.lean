import CssQuery.Proofs.Dom.Edits
import CssQuery.Proofs.Dom.Index

namespace CssQuery

-- What has attributes has them changed, and all else stays.
def Content.amended (change : Attributes → Attributes) : Content → Content
  | .element tag attrs => .element tag (change attrs)
  | content => content

namespace Dom

-- Changes the attributes of a node in any way, if it is an element. Whoever asks to change
-- a node drops the index.
def amend (dom : Dom) (node : Node) (change : Attributes → Attributes) : Dom where
  records := dom.records.modify node fun r => { r with content := r.content.amended change }
  index := none

-- The calls that make nodes, link them, change their attributes, or index the document.
inductive Change where
  | edit (call : Edit)
  | setAttribute (node : Node) (name value : String)
  | amend (node : Node) (change : Attributes → Attributes)
  | buildIndex

def Change.apply? (dom : Dom) : Change → Option Dom
  | .edit call => call.apply? dom
  | .setAttribute node name value => some (dom.setAttribute node name value).2
  | .amend node change => some (dom.amend node change)
  | .buildIndex => some dom.buildIndex

def Change.Proper (dom : Dom) : Change → Prop
  | .edit call => call.Proper dom
  | .setAttribute .. | .amend .. | .buildIndex => True

inductive History : Dom → List Change → Dom → Prop
  | nil {dom : Dom} : History dom [] dom
  | cons {dom next last : Dom} {change : Change} {more : List Change}
      (hproper : change.Proper dom) (happly : change.apply? dom = some next)
      (hmore : History next more last) : History dom (change :: more) last

-- A node that is only made leaves an index in place, and so does indexing again.
def Change.Spares : Change → Prop
  | .edit (.create _) | .buildIndex => True
  | .edit (.appendNew ..) | .edit (.append ..) | .setAttribute .. | .amend .. => False

-- The document was indexed, and nothing was linked or asked to change since.
def Fresh (changes : List Change) : Prop :=
  ∃ before after, changes = before ++ .buildIndex :: after ∧ ∀ change ∈ after, change.Spares

-- The elements of an id that are part of the document, each once, in document order.
structure Lists (dom : Dom) (id : String) (found : List Node) : Prop where
  mem_iff : ∀ node, node ∈ found ↔ dom.isDescendantOf node root = true ∧
    dom.isElement node = true ∧ dom.attr node "id" = some id
  ordered : found.Pairwise dom.toTree.Before
  nodup : found.Nodup

variable {dom next first last : Dom} {node parent child : Node} {call : Edit} {change : Change}
  {changes more : List Change}

section Amend

variable (dom)

theorem get?_amend (node : Node) (change : Attributes → Attributes) (other : Node) :
    (dom.amend node change).get? other = (dom.get? other).map fun r =>
      if node = other then { r with content := r.content.amended change } else r := by
  simp only [get?, amend, Array.getElem?_modify]
  by_cases hn : node = other <;> simp [hn]

theorem links_amend (node : Node) (change : Attributes → Attributes) (other : Node) :
    (dom.amend node change).parent other = dom.parent other ∧
    (dom.amend node change).children other = dom.children other ∧
    (dom.amend node change).nextSibling other = dom.nextSibling other ∧
    (dom.amend node change).prevSibling other = dom.prevSibling other := by
  simp only [Dom.parent, children, Dom.nextSibling, Dom.prevSibling, get?_amend]
  cases dom.get? other with
  | none => simp
  | some r => by_cases hn : node = other <;> simp [hn]

theorem size_amend (node : Node) (change : Attributes → Attributes) :
    (dom.amend node change).size = dom.size :=
  Array.size_modify

variable {dom}

theorem modify_congr {f g : NodeRecord → NodeRecord}
    (h : ∀ r, dom.get? node = some r → f r = g r) :
    dom.records.modify node f = dom.records.modify node g := by
  apply Array.ext_getElem?
  intro i
  rw [Array.getElem?_modify, Array.getElem?_modify]
  split
  · next hi => exact Option.map_congr fun r hr => h r (hi ▸ hr)
  · rfl

-- What has no attributes is as it was.
theorem amend_of_kept {change : Attributes → Attributes}
    (h : ∀ r, dom.get? node = some r → r.content.amended change = r.content) :
    dom.amend node change = { dom with index := none } := by
  have hsame : dom.records.modify node (fun r => r) = dom.records := by
    apply Array.ext_getElem?
    intro i
    simp [Array.getElem?_modify]
  have hrecords := modify_congr (g := fun r => r) fun r hr =>
    show { r with content := r.content.amended change } = r by rw [h r hr]
  rw [amend, hrecords, hsame]

theorem content_of_get? {r : NodeRecord} {content : Content}
    (hc : dom.content? node = some content) (hr : dom.get? node = some r) :
    r.content = content := by
  rw [content?, hr, Option.map_some] at hc
  exact Option.some.inj hc

-- Setting one attribute is a change of this kind.
theorem setAttribute_eq_amend (node : Node) (name value : String) :
    (dom.setAttribute node name value).2 = dom.amend node (·.insert name value) := by
  rw [setAttribute]
  split
  · next hc =>
      change dom.content? node = none at hc
      refine (amend_of_kept fun r hr => ?_).symm
      simp [content?, hr] at hc
  · next tag attrs hc =>
      change dom.content? node = some (.element tag attrs) at hc
      have hrecords : dom.records.modify node
            (fun r => { r with content := .element tag (attrs.insert name value) }) =
          dom.records.modify node
            fun r => { r with content := r.content.amended (·.insert name value) } :=
        modify_congr fun r hr => by rw [content_of_get? hc hr, Content.amended]
      exact congrArg (fun records => Dom.mk records none) hrecords
  · next content hne hc =>
      change dom.content? node = some content at hc
      refine (amend_of_kept fun r hr => ?_).symm
      rw [content_of_get? hc hr]
      cases content with
      | element tag attrs => exact absurd rfl (hne tag attrs)
      | _ => rfl

end Amend

section Steps

theorem Forest.amend (h : Forest dom) (node : Node) (change : Attributes → Attributes) :
    Forest (dom.amend node change) :=
  h.of_links (size_amend dom node change).ge (links_amend dom node change)

theorem Forest.edit (h : Forest dom) (hproper : call.Proper dom)
    (happly : call.apply? dom = some next) : Forest next := by
  cases call with
  | create content =>
      obtain rfl := Option.some.inj happly
      exact h.create content
  | appendNew parent content =>
      obtain ⟨made, hmade, rfl⟩ := Option.map_eq_some_iff.1 happly
      obtain ⟨linked, hlinked, rfl⟩ := Option.map_eq_some_iff.1 hmade
      exact (h.create content).append hproper.free hproper.not_self hproper.not_below hlinked
  | append parent child =>
      exact h.append hproper.free hproper.not_self hproper.not_below happly

theorem Forest.changed (h : Forest dom) (hproper : change.Proper dom)
    (happly : change.apply? dom = some next) : Forest next := by
  cases change with
  | edit call => exact h.edit hproper happly
  | setAttribute node name value =>
      obtain rfl := Option.some.inj happly
      rw [setAttribute_eq_amend]
      exact h.amend node _
  | amend node change =>
      obtain rfl := Option.some.inj happly
      exact h.amend node change
  | buildIndex =>
      obtain rfl := Option.some.inj happly
      exact h.of_links le_rfl fun _ => ⟨rfl, rfl, rfl, rfl⟩

-- An append drops the index, whether the child was there before or is new.
theorem index_append (happend : dom.append? parent child = some next) : next.index = none := by
  obtain ⟨-, -, rfl⟩ := append?_eq_some.1 happend
  exact index_link parent child

-- A change either drops the index, or leaves it as it was, or makes it anew.
theorem index_cases (happly : change.apply? dom = some next) :
    (¬ change.Spares ∧ change ≠ .buildIndex ∧ next.index = none) ∨
      (∃ content, change = .edit (.create content) ∧ next = (dom.create content).2) ∨
      (change = .buildIndex ∧ next = dom.buildIndex) := by
  cases change with
  | edit call =>
      cases call with
      | create content => exact .inr (.inl ⟨content, rfl, (Option.some.inj happly).symm⟩)
      | appendNew parent content =>
          obtain ⟨made, hmade, rfl⟩ := Option.map_eq_some_iff.1 happly
          obtain ⟨linked, hlinked, rfl⟩ := Option.map_eq_some_iff.1 hmade
          exact .inl ⟨not_false, nofun, index_append hlinked⟩
      | append parent child => exact .inl ⟨not_false, nofun, index_append happly⟩
  | setAttribute node name value =>
      obtain rfl := Option.some.inj happly
      exact .inl ⟨not_false, nofun, index_setAttribute node name value⟩
  | amend node change =>
      obtain rfl := Option.some.inj happly
      exact .inl ⟨not_false, nofun, rfl⟩
  | buildIndex => exact .inr (.inr ⟨rfl, (Option.some.inj happly).symm⟩)

theorem hasIndex_change (happly : change.apply? dom = some next) :
    next.hasIndex = true ↔ change = .buildIndex ∨ dom.hasIndex = true ∧ change.Spares := by
  rcases index_cases happly with ⟨hspares, hbuild, hi⟩ | ⟨content, rfl, rfl⟩ | ⟨rfl, rfl⟩
  · simp [hasIndex, hi, hspares, hbuild]
  · simp [hasIndex, create, Change.Spares]
  · simp [hasIndex, buildIndex]

theorem indexed_change (h : Forest dom) (hi : dom.index = none ∨ dom.Listed)
    (happly : change.apply? dom = some next) : next.index = none ∨ next.Listed := by
  rcases index_cases happly with ⟨-, -, hnone⟩ | ⟨content, -, rfl⟩ | ⟨-, rfl⟩
  · exact .inl hnone
  · exact hi.imp_right fun hl => hl.create h content
  · exact .inr (listed_buildIndex dom)

end Steps

theorem fresh_cons : Fresh (change :: more) ↔
    (change = .buildIndex ∧ ∀ later ∈ more, later.Spares) ∨ Fresh more := by
  constructor
  · rintro ⟨before, after, hsplit, hspares⟩
    cases before with
    | nil =>
        obtain ⟨rfl, rfl⟩ := List.cons.inj hsplit
        exact .inl ⟨rfl, hspares⟩
    | cons head before =>
        obtain ⟨rfl, rfl⟩ := List.cons.inj hsplit
        exact .inr ⟨before, after, rfl, hspares⟩
  · rintro (⟨rfl, hspares⟩ | ⟨before, after, rfl, hspares⟩)
    · exact ⟨[], more, rfl, hspares⟩
    · exact ⟨change :: before, after, rfl, hspares⟩

namespace History

theorem forest (h : History first changes last) (hfirst : Forest first) : Forest last := by
  induction h with
  | nil => exact hfirst
  | cons hproper happly _ ih => exact ih (hfirst.changed hproper happly)

theorem hasIndex_iff (h : History first changes last) : last.hasIndex = true ↔
    Fresh changes ∨ first.hasIndex = true ∧ ∀ change ∈ changes, change.Spares := by
  induction h with
  | nil => simp [Fresh]
  | cons _ happly _ ih =>
      rw [ih, hasIndex_change happly, fresh_cons, List.forall_mem_cons]
      tauto

theorem indexed (h : History first changes last) (hfirst : Forest first)
    (hi : first.index = none ∨ first.Listed) : last.index = none ∨ last.Listed := by
  induction h with
  | nil => exact hi
  | cons hproper happly _ ih =>
      exact ih (hfirst.changed hproper happly) (indexed_change hfirst hi happly)

end History

theorem isElement_of_attr {name value : String} (h : dom.attr node name = some value) :
    dom.isElement node = true := by
  obtain ⟨element, he, -⟩ := Option.bind_eq_some_iff.1 h
  rw [isElement, he, Option.isSome_some]

theorem Forest.lists (h : Forest dom) (id : String) :
    dom.Lists id ((dom.descendants root).filter fun node => dom.id node = some id) := by
  have hordered := h.descendants_pairwise root
  refine ⟨fun node => ?_, hordered.filter _, ?_⟩
  · rw [List.mem_filter, h.mem_descendants, ← h.isDescendantOf_iff_below, decide_eq_true_iff]
    exact and_congr_right fun _ => (and_iff_right_of_imp isElement_of_attr).symm
  · exact h.consistent.nodup_of_pairwise (hordered.filter _)

-- Through any history a document has an index exactly if nothing was linked or asked to
-- change since it was indexed, and then the index tells for each id what the document has.
theorem elementsWithId_of_history (h : History .new changes last) :
    (last.hasIndex = true ↔ Fresh changes) ∧ ∀ id,
      (Fresh changes → ∃ found, last.elementsWithId id = some found ∧ last.Lists id found) ∧
      (¬ Fresh changes → last.elementsWithId id = none) := by
  have hforest := h.forest .new
  have hindex : last.hasIndex = true ↔ Fresh changes := by
    rw [h.hasIndex_iff]
    simp [hasIndex, Dom.new]
  refine ⟨hindex, fun id => ⟨fun hfresh => ?_, fun hstale => ?_⟩⟩
  · rcases h.indexed .new (.inl rfl) with hnone | hlisted
    · have hi := hindex.2 hfresh
      simp [hasIndex, hnone] at hi
    · exact ⟨_, hlisted id, hforest.lists id⟩
  · rw [← hindex, hasIndex, Option.not_isSome_iff_eq_none] at hstale
    exact last.elementsWithId_eq_none hstale id

def itemContent : Content := .element "li" (.ofList [("id", "x")])

-- An item that was made first, a list that it is put into and that comes to have the same
-- id, and another such item that is left over.
def shelfChanges : List Change :=
  [.edit (.create itemContent), .edit (.appendNew root (.element "ul" .empty)),
    .edit (.append 2 1), .setAttribute 2 "id" "x", .buildIndex, .edit (.create itemContent)]

def shelf : Dom :=
  (((((Dom.new.create itemContent).2.adopt root (.element "ul" .empty)).2.link 2 1).setAttribute
    2 "id" "x").2.buildIndex.create itemContent).2

theorem history_shelf : History .new shelfChanges shelf :=
  .cons trivial rfl (.cons ⟨rfl, by decide, rfl⟩ rfl (.cons ⟨rfl, by decide, rfl⟩ rfl
    (.cons trivial rfl (.cons trivial rfl (.cons trivial rfl .nil)))))

theorem elementsWithId_of_history_shelf : History .new shelfChanges shelf ∧
    Fresh shelfChanges ∧ shelf.hasIndex = true ∧
      ∃ found, shelf.elementsWithId "x" = some found ∧ shelf.Lists "x" found ∧
        2 ∈ found ∧ 1 ∈ found ∧ 3 ∉ found := by
  have hfresh : Fresh shelfChanges :=
    ⟨shelfChanges.take 4, shelfChanges.drop 5, rfl, by simp [shelfChanges, Change.Spares]⟩
  obtain ⟨hindex, hanswers⟩ := elementsWithId_of_history history_shelf
  obtain ⟨found, hfound, hlists⟩ := (hanswers "x").1 hfresh
  refine ⟨history_shelf, hfresh, hindex.2 hfresh, found, hfound, hlists, ?_, ?_, ?_⟩
  · exact (hlists.mem_iff 2).2 ⟨rfl, rfl, rfl⟩
  · exact (hlists.mem_iff 1).2 ⟨rfl, rfl, rfl⟩
  · have hout : shelf.isDescendantOf 3 root = false := rfl
    simp [hlists.mem_iff, hout]

end Dom

end CssQuery
