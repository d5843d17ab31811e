import CssQuery.Proofs.Dom.Twins
import CssQuery.Proofs.Query.Index

namespace CssQuery

open Dom

variable {d e : Dom} {a b : Node}

section Twins

variable (hd : d.Orderly) (he : e.Orderly) (hsame : d.described = e.described)

include hd he hsame

theorem element?_of_twins (h : Twins d e a b) : d.sort.element? a = e.sort.element? b :=
  element?_congr (h.saidAlike hd he hsame).content

theorem isElement_of_twins (h : Twins d e a b) : d.isElement a = e.isElement b := by
  rw [← isElement_sort, ← e.isElement_sort, isElement, isElement, element?_of_twins hd he hsame h]

theorem isEmpty_of_twins (h : Twins d e a b) : d.isEmpty a = e.isEmpty b := by
  have hcontents : (d.children a).map d.sort.content? = (e.children b).map e.sort.content? := by
    apply map_eq_of_forall₂ (h.children hd he hsame)
    intro x _ y hxy
    exact (hxy.saidAlike hd he hsame).content
  have hall := congrArg (List.all · fun content => content.any isBlankContent) hcontents
  rw [List.all_map, List.all_map] at hall
  rw [← isEmpty_sort, ← e.isEmpty_sort, isEmpty, isEmpty, children_sort, children_sort]
  exact hall

theorem linked_of_twins : d.Linked e (Twins d e) where
  isElement _ _ h := isElement_of_twins hd he hsame h
  parent _ _ h := h.parent hd he
  preceding _ _ h := (h.siblings hd he hsame).1
  following _ _ h := (h.siblings hd he hsame).2

variable (hapart : d.NamesApart)

include hapart

theorem sameLooks_of_twins (exactNames : Bool) (h : Twins d e a b) :
    Scene.SameLooks ⟨d.toTree, exactNames⟩ ⟨e.toTree, exactNames⟩ (fun _ => True) a b := by
  have helement := element?_of_twins hd he hsame h
  have hname : d.localName a = e.localName b := by
    rw [← localName_sort, ← e.localName_sort, localName, localName, helement]
  have hattr : d.attr a = e.attr b := by
    funext name
    rw [← attr_sort, ← e.attr_sort, attr, attr, helement]
  have hfolded := hapart.foldedAttr_eq helement
  refine ⟨?_, ?_, hasClass_congr (congrFun hattr "class"), ?_, ?_, isEmpty_of_twins hd he hsame h⟩
  · exact congrArg (Option.map (foldName exactNames)) hname
  · exact congrFun hattr "id"
  · intro name _
    rw [Scene.attr, Scene.attr]
    exact ite_congr rfl (fun _ => congrFun hattr name) fun _ => hfolded name
  · exact (linked_of_twins hd he hsame).isRoot h

-- Nodes in the same place of documents that are described alike mirror each other.
theorem mirrors_of_twins (exactNames : Bool) :
    Scene.Mirrors ⟨d.toTree, exactNames⟩ ⟨e.toTree, exactNames⟩ (Twins d e) fun _ => True where
  toLike := (linked_of_twins hd he hsame).like exactNames
  exactNames := rfl
  looks h _ := sameLooks_of_twins hd he hsame hapart exactNames h
  untold _ _ := ⟨rfl, rfl⟩
  asked_of_folded _ _ := trivial

theorem holdsAt_of_twins (query : Query) (h : Twins d e a b) :
    query.holdsAt d.toTree a = query.holdsAt e.toTree b := by
  have hdc := hd.built.forest.consistent
  have hec := he.built.forest.consistent
  rw [Query.holdsAt_eq_anyFit hdc, Query.holdsAt_eq_anyFit hec]
  apply (mirrors_of_twins hd he hsame hapart query.exactNames).anyFit_eq hdc hec h
  intro leaf _
  cases leaf <;> trivial

end Twins

namespace Query

variable {dom : Dom}

-- No element below the root is missing from an index.
theorem answered_root (hdom : dom.Built) (query : Query)
    (hids : ∀ chain ∈ query.chains, chain.id? ≠ none) :
    query.Answered dom.toTree [Dom.root] := by
  rcases hdom.indexed with hi | hlisted
  · cases hchains : query.chains with
    | nil => exact .inr (by simp [hchains])
    | cons chain more =>
        have hm : chain ∈ query.chains := by simp [hchains]
        obtain ⟨id, hid⟩ := Option.ne_none_iff_exists'.1 (hids chain hm)
        exact .inl ⟨chain, hm, id, hid, dom.elementsWithId_eq_none hi id⟩
  · refine .inr fun chain _ id _ => ⟨_, hlisted id, fun a _ hown hbelow => ?_⟩
    obtain ⟨r, hr, hbelow⟩ := hbelow
    rw [List.mem_singleton.1 hr] at hbelow
    exact List.mem_filter.2 ⟨hdom.forest.mem_descendants.2 hbelow, decide_eq_true hown⟩

-- What a query finds of a document, whether it is indexed or not.
theorem found_root (hdom : dom.Built) (query : Query) :
    query.found dom.toTree [Dom.root] = (dom.descendants Dom.root).filter fun a =>
      dom.isElement a && query.holdsAt dom.toTree a := by
  have h := hdom.forest.consistent
  have hself := dom.toTree.connected_singleton Dom.root
  have hwalk : query.found dom.toTree [Dom.root] =
      (dom.toTree.elementsBelow (dom.toTree.topmost [Dom.root])).filter
        (query.holdsAt dom.toTree) := by
    by_cases hids : ∀ chain ∈ query.chains, chain.id? ≠ none
    · exact found_seeded h query hids hself (answered_root hdom query hids)
    · obtain ⟨chain, hm, hid⟩ : ∃ chain ∈ query.chains, chain.id? = none := by
        simpa using hids
      rw [found, candidates_of_walk (.inl (seeds?_eq_none.2 (.inr ⟨chain, hm, hid⟩)))]
  rw [hwalk]
  apply h.eq_of_pairwise
  · exact (h.elementsBelow_pairwise hself).filter _
  · exact (hdom.forest.descendantsWithin_pairwise _ _).filter _
  · intro a
    rw [List.mem_filter, List.mem_filter, h.mem_elementsBelow, h.below_topmost,
      hdom.forest.mem_descendants, Bool.and_eq_true_iff]
    simp only [List.mem_singleton, exists_eq_left]
    rw [and_assoc, and_left_comm]
    rfl

theorem select_root (hdom : dom.Built) (query : Query) (mode : SelectMode) :
    query.select dom.toTree [Dom.root] mode =
      query.checked (upTo mode.limit ((dom.descendants Dom.root).filter fun a =>
        dom.isElement a && query.holdsAt dom.toTree a)) := by
  rw [select_eq query hdom.forest.consistent, found_root hdom]

theorem selectAll_root (hdom : dom.Built) (query : Query) :
    query.selectAll dom.toTree Dom.root = query.checked ((dom.descendants Dom.root).filter fun a =>
      dom.isElement a && query.holdsAt dom.toTree a) :=
  select_root hdom query .all

end Query

-- The node that one document has in a place stands for the node that another has there.
def SamePlace (d e : Dom) (a b : Node) : Prop :=
  ∃ i : Nat, (d.descendants Dom.root)[i]? = some a ∧ (e.descendants Dom.root)[i]? = some b

-- Of two documents every query finds the nodes in the same places, in the same order.
structure AnswerAlike (d e : Dom) : Prop where
  length_eq : (d.descendants Dom.root).length = (e.descendants Dom.root).length
  answers : ∀ query : Query, ∃ found other,
    query.selectAll d.toTree Dom.root = query.checked found ∧
    query.selectAll e.toTree Dom.root = query.checked other ∧
    (∀ a b, SamePlace d e a b → (a ∈ found ↔ b ∈ other)) ∧
    List.Forall₂ (SamePlace d e) found other

theorem samePlace_iff : SamePlace d e a b ↔
    (a, b) ∈ (d.descendants Dom.root).zip (e.descendants Dom.root) := by
  rw [List.mem_iff_getElem?]
  simp only [List.getElem?_zip_eq_some]
  rfl

theorem answerAlike_of_described (hd : d.Orderly) (he : e.Orderly)
    (hsame : d.described = e.described) (hapart : d.NamesApart) : AnswerAlike d e := by
  obtain ⟨hlength, htwins⟩ := List.forall₂_iff_zip.1 (Twins.descendants hd he hsame)
  have hplaces : List.Forall₂ (SamePlace d e) (d.descendants Dom.root)
      (e.descendants Dom.root) :=
    List.forall₂_iff_zip.2 ⟨hlength, fun hm => samePlace_iff.2 hm⟩
  refine ⟨hlength, fun query => ?_⟩
  have hfinds : ∀ a b, SamePlace d e a b → (d.isElement a && query.holdsAt d.toTree a) =
      (e.isElement b && query.holdsAt e.toTree b) := by
    intro a b hab
    have htwins := htwins (samePlace_iff.1 hab)
    rw [isElement_of_twins hd he hsame htwins, holdsAt_of_twins hd he hsame hapart query htwins]
  refine ⟨_, _, Query.selectAll_root hd.built query, Query.selectAll_root he.built query, ?_,
    forall₂_filter hplaces hfinds⟩
  intro a b hab
  obtain ⟨ha, hb⟩ := List.of_mem_zip (samePlace_iff.1 hab)
  rw [List.mem_filter, List.mem_filter, hfinds a b hab]
  exact and_congr_left fun _ => iff_of_true ha hb

-- What documents say of themselves settles what queries find, whatever numbers the nodes have,
-- in whatever order attributes are kept, and whatever else was made. So loading what a document
-- says changes no answer. Names of attributes have to differ in more than letter case, as
-- otherwise their order tells which of them counts.
theorem answers_of_described (hd : d.Orderly) (he : e.Orderly) (hapart : d.NamesApart)
    (hsame : d.described = e.described) : AnswerAlike d e ∧
      (Description.AllTagged d.described → ∀ layout : Layout,
        ∃ loaded, ofDescriptions layout d.described = .ok loaded ∧ AnswerAlike d loaded) := by
  refine ⟨answerAlike_of_described hd he hsame hapart, fun ht layout => ?_⟩
  obtain ⟨loaded, hload, hl, hsays⟩ := exists_orderly layout ht
  exact ⟨loaded, hload, answerAlike_of_described hd hl hsays.symm hapart⟩

def itemAttributes : Attributes := .ofList [("lang", "de"), ("id", "x")]

-- An item that was made before its list, and a comment that is not part of the document.
def scattered : Dom :=
  (((Dom.new.create (.element "li" itemAttributes)).2.create (.comment "left over")).2.adopt
    Dom.root (.element "ul" .empty)).2.link 3 1

def scatteredEdits : List Edit :=
  [.create (.element "li" itemAttributes), .create (.comment "left over"),
    .appendNew Dom.root (.element "ul" .empty), .append 3 1]

theorem run_scattered : Run .new scatteredEdits scattered :=
  .cons trivial rfl (.cons trivial rfl (.cons ⟨rfl, by decide, rfl⟩ rfl
    (.cons ⟨rfl, by decide, rfl⟩ rfl .nil)))

theorem orderly_scattered : scattered.Orderly where
  built := Built.new.run run_scattered
  whole := Whole.new.run .new run_scattered (by simp [scatteredEdits, Edit.Ordinary, Dom.root])
  leafy := by decide

def gatheredDescriptions : List Description :=
  [.element "ul" .empty [.element "li" itemAttributes.sort []]]

-- The same list, loaded at once and indexed, with its attributes in the order of their names.
def gathered : Dom :=
  ((Dom.new.adopt Dom.root (.element "ul" .empty)).2.adopt 1
    (.element "li" itemAttributes.sort.toAttributes)).2.buildIndex

theorem orderly_gathered : gathered.Orderly := by
  have hload : ofDescriptions .byName gatheredDescriptions =
      .ok ((Dom.new.adopt Dom.root (.element "ul" .empty)).2.adopt 1
        (.element "li" itemAttributes.sort.toAttributes)).2 := rfl
  exact ⟨(built_ofDescriptions hload).buildIndex, (whole_ofDescriptions hload).buildIndex,
    by decide⟩

theorem answers_of_described_scattered :
    scattered.Orderly ∧ gathered.Orderly ∧ scattered.NamesApart ∧
      scattered.described = gathered.described ∧ scattered.content? 1 ≠ gathered.content? 2 ∧
      AnswerAlike scattered gathered ∧ Description.AllTagged scattered.described ∧
      (∃ loaded, ofDescriptions .byName scattered.described = .ok loaded ∧
        AnswerAlike scattered loaded) ∧
      (Query.byId true).selectAll scattered.toTree Dom.root = .ok [1] := by
  have hapart : scattered.NamesApart := by decide
  have hscattered : scattered.described = gatheredDescriptions := by rfl
  have hgathered : gathered.described = gatheredDescriptions := by rfl
  have htagged : Description.AllTagged scattered.described := by
    rw [hscattered]
    simp [gatheredDescriptions, Description.AllTagged, Description.Tagged]
  have hdiffers : scattered.content? 1 ≠ gathered.content? 2 := by
    intro he
    have horder : itemAttributes ≠ itemAttributes.sort.toAttributes := by decide
    exact horder (Content.element.inj (Option.some.inj he)).2
  have hsame := hscattered.trans hgathered.symm
  obtain ⟨halike, hreload⟩ := answers_of_described orderly_scattered orderly_gathered hapart hsame
  have hfound : (Query.byId true).selectAll scattered.toTree Dom.root = .ok [1] := by
    with_unfolding_all rfl
  exact ⟨orderly_scattered, orderly_gathered, hapart, hsame, hdiffers, halike, htagged,
    hreload htagged .byName, hfound⟩

-- A text with something below it, which its description leaves out.
def captioned (tag : String) : Dom :=
  ((Dom.new.adopt Dom.root (.text "x")).2.adopt 1 (.element tag .empty)).2

theorem built_captioned (tag : String) : (captioned tag).Built :=
  (Built.new.adopt (by decide) _).adopt (by rw [size_adopt]; decide) _

theorem whole_captioned (tag : String) : (captioned tag).Whole :=
  (Whole.new.adopt (by decide) (by simp) _).adopt (by rw [size_adopt]; decide) (by simp) _

theorem not_forall_answerAlike : ¬ ∀ d e : Dom, d.Built → d.Whole → e.Built → e.Whole →
    d.NamesApart → e.NamesApart → d.described = e.described → AnswerAlike d e := by
  intro hall
  have hsame : (captioned "p").described = (captioned "q").described := by rfl
  have hapart : (captioned "p").NamesApart ∧ (captioned "q").NamesApart := by decide
  have halike := hall _ _ (built_captioned "p") (whole_captioned "p") (built_captioned "q")
    (whole_captioned "q") hapart.1 hapart.2 hsame
  obtain ⟨found, other, hfound, hother, hplaces, -⟩ := halike.answers Query.paragraphs
  have hp : Query.paragraphs.selectAll (captioned "p").toTree Dom.root = .ok [2] := by
    with_unfolding_all rfl
  have hq : Query.paragraphs.selectAll (captioned "q").toTree Dom.root = .ok [] := by
    with_unfolding_all rfl
  have hchecked : ∀ nodes : List Node, Query.paragraphs.checked nodes = .ok nodes := fun _ => rfl
  rw [hp, hchecked] at hfound
  rw [hq, hchecked] at hother
  obtain rfl := Except.ok.inj hfound
  obtain rfl := Except.ok.inj hother
  have hplace : SamePlace (captioned "p") (captioned "q") 2 2 := ⟨1, rfl, rfl⟩
  simpa using (hplaces 2 2 hplace).1 (by simp)

end CssQuery
