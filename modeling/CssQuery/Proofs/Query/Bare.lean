import CssQuery.Proofs.Dom.Contents
import CssQuery.Proofs.Query.Index

namespace CssQuery

-- No name of an attribute has a capital.
def Attributes.SmallNamed (attrs : Attributes) : Prop :=
  ∀ pair ∈ attrs.pairs, ∀ c ∈ pair.1.toList, c.isUpper = false

theorem Attributes.SmallNamed.getFolded? {attrs : Attributes} (h : attrs.SmallNamed) {name : String}
    (hn : Text.fold name = name) : attrs.getFolded? name = attrs.get? name := by
  rw [Attributes.getFolded?]
  cases hg : attrs.get? name with
  | some value => rfl
  | none =>
      have hnone : attrs.pairs.find? (Text.sameFolded name ·.1) = none := by
        rw [List.find?_eq_none]
        intro pair hm hsame
        have hfold := Text.sameFolded_iff.1 hsame
        rw [hn, Text.fold_eq_self (h pair hm)] at hfold
        have hne := List.lookup_eq_none_iff.1 hg pair hm
        simp [hfold] at hne
      rw [hnone]
      rfl

section Leaves

open Query

-- With folded names, chains ask for attributes of folded names only.
def NameFolded (exactNames : Bool) (name : String) : Prop :=
  exactNames = true ∨ Text.fold name = name

variable {exactNames : Bool}

theorem nameFolded_foldName (name : String) : NameFolded exactNames (foldName exactNames name) := by
  cases exactNames with
  | true => exact .inl rfl
  | false => exact .inr (Text.fold_fold name)

theorem leavesOfTests_eq_flatMap (tests : List Test) :
    leavesOfTests tests = tests.flatMap Test.leaves := by
  induction tests with
  | nil => rfl
  | cons test more ih => rw [leavesOfTests, List.flatMap_cons, ih]

theorem mem_leaves_sortTests {leaf : Test} {tests : List Test} :
    leaf ∈ leavesOfTests (sortTests tests) ↔ leaf ∈ leavesOfTests tests := by
  have hperm : (sortTests tests).Perm tests := List.mergeSort_perm tests _
  rw [leavesOfTests_eq_flatMap, leavesOfTests_eq_flatMap, (hperm.flatMap_right _).mem_iff]

mutual

theorem Simple.asksOnly_lower : (simple : Simple) →
    ∀ test ∈ lowerSimple? exactNames simple, ∀ leaf ∈ test.leaves,
      leaf.AsksOnly (NameFolded exactNames)
  | .universal, _, hm => by simp [lowerSimple?] at hm
  | .hasAttribute selector, _, rfl => by
      simp [Test.leaves, Test.AsksOnly, nameFolded_foldName]
  | .never, _, rfl | .tag _, _, rfl | .hasId _, _, rfl | .hasClass _, _, rfl
  | .keyword _, _, rfl | .nthChild _ _ none, _, rfl | .nthOfType _ _, _, rfl => by
      simp [Test.leaves, Test.AsksOnly]
  | .nthChild edge formula (some selectors), _, rfl => asksOnly_lowerList selectors
  | .noneOf selectors, _, rfl => asksOnly_lowerList selectors
  | .anyOf selectors, _, rfl => asksOnly_lowerList selectors

theorem asksOnly_lowerSimples : (compound : List Simple) →
    ∀ leaf ∈ leavesOfTests (lowerSimples exactNames compound),
      leaf.AsksOnly (NameFolded exactNames)
  | [] => by simp [lowerSimples, leavesOfTests]
  | simple :: more => by
      have hs := Simple.asksOnly_lower simple
      have hm := asksOnly_lowerSimples more
      rw [lowerSimples]
      cases hl : lowerSimple? exactNames simple with
      | none => exact hm
      | some test => exact List.forall_mem_append.2 ⟨hs test hl, hm⟩

theorem asksOnly_lowerList : (selectors : List Complex) →
    ∀ leaf ∈ leavesOfChains (lowerList exactNames selectors),
      leaf.AsksOnly (NameFolded exactNames)
  | [] => by simp [lowerList, leavesOfChains]
  | complex :: more =>
      List.forall_mem_append.2 ⟨Complex.asksOnly_lower complex, asksOnly_lowerList more⟩

theorem Complex.asksOnly_lower : (complex : Complex) →
    ∀ leaf ∈ (lowerComplex exactNames complex).leaves, leaf.AsksOnly (NameFolded exactNames)
  | ⟨subject, links⟩ => by
      rw [lowerComplex]
      apply asksOnly_lowerLinks
      intro leaf hm
      exact asksOnly_lowerSimples subject leaf (mem_leaves_sortTests.1 hm)

theorem asksOnly_lowerLinks {tests : List Test}
    (ht : ∀ leaf ∈ leavesOfTests tests, leaf.AsksOnly (NameFolded exactNames)) :
    (links : List Link) → ∀ leaf ∈ (lowerLinks exactNames tests links).leaves,
      leaf.AsksOnly (NameFolded exactNames)
  | [] => ht
  | ⟨combinator, compound⟩ :: more => by
      rw [lowerLinks]
      refine List.forall_mem_append.2 ⟨ht, ?_⟩
      apply asksOnly_lowerLinks
      intro leaf hm
      exact asksOnly_lowerSimples compound leaf (mem_leaves_sortTests.1 hm)

end

end Leaves

namespace Dom

variable {dom : Dom} {node child : Node}

theorem hasClass_eq (node : Node) (name : String) :
    dom.hasClass node name = dom.bareTree.hasClass node name := by
  have hbare : dom.bareTree.hasClass node name = (dom.attr node "class").any fun list =>
      (Text.words list.toList).contains name.toList := rfl
  rw [hbare, hasClass, classes]
  cases dom.attr node "class" with
  | none => rfl
  | some list => exact Text.contains_map_ofList _ name

-- Of what may stand below an element, content is what is not blank.
theorem isContent_eq {content : Content} (hc : dom.content? child = some content)
    (hd : content ≠ .document) :
    isContent dom.isElement dom.text child = !(dom.content? child).any isBlankContent := by
  cases content with
  | document => exact absurd rfl hd
  | element tag attrs => simp [isContent, isElement, element?, hc, isBlankContent]
  | text text => simp [isContent, isElement, element?, Dom.text, hc, isBlankContent]
  | comment text => simp [isContent, isElement, element?, Dom.text, hc, isBlankContent]

-- The children come to the same, whether they are listed or found along the links.
theorem isEmpty_eq (hw : dom.Whole) (h : dom.Forest) (node : Node) :
    dom.isEmpty node = dom.bareTree.isEmpty node := by
  have hcontent : dom.isEmpty node =
      !(dom.children node).any (isContent dom.isElement dom.text) := by
    rw [isEmpty, List.all_eq_not_any_not]
    refine congrArg (!·) (any_eq_of_forall₂ (r := Eq) (List.forall₂_refl _) ?_)
    rintro child hm _ rfl
    obtain ⟨content, hc, hd⟩ := hw.exists_content h hm
    exact (isContent_eq hc hd).symm
  rw [hcontent]
  cases hf : dom.firstChild node with
  | none =>
      have hbare : dom.bareTree.isEmpty node = true := by simp [bareTree, hf]
      rw [hbare, List.head?_eq_none_iff.1 hf]
      rfl
  | some first =>
      have hbare : dom.bareTree.isEmpty node =
          !(first :: dom.toTree.following first).any (isContent dom.isElement dom.text) := by
        simp only [bareTree, hf]
        rfl
      rw [hbare, h.children_eq_cons hf]

-- Whether all elements of a document have names of attributes without capitals.
def SmallNamed (dom : Dom) : Prop :=
  ∀ node tag attrs, dom.content? node = some (.element tag attrs) → attrs.SmallNamed

theorem SmallNamed.foldedAttr_eq (hsmall : dom.SmallNamed) {name : String}
    (hn : Text.fold name = name) : dom.foldedAttr node name = dom.attr node name := by
  rw [foldedAttr, attr, element?]
  split
  · next tag attrs hc => exact (hsmall node tag attrs hc).getFolded? hn
  · rfl

theorem SmallNamed.adopt (hsmall : dom.SmallNamed) (parent : Node) {content : Content}
    (hc : ∀ tag attrs, content = .element tag attrs → attrs.SmallNamed) :
    (dom.adopt parent content).2.SmallNamed := by
  intro node tag attrs hnode
  rw [content?_adopt] at hnode
  split at hnode
  · exact hc tag attrs (Option.some.inj hnode)
  · exact hsmall node tag attrs hnode

theorem mirrors_bareTree (hw : dom.Whole) (h : dom.Forest) (hsmall : dom.SmallNamed)
    (exactNames : Bool) : Scene.Mirrors ⟨dom.toTree, exactNames⟩ ⟨dom.bareTree, exactNames⟩ Eq
      (NameFolded exactNames) where
  toLike := .of_eq rfl rfl rfl
  exactNames := rfl
  looks {a b} hab _ := by
    subst hab
    refine ⟨rfl, rfl, dom.hasClass_eq a, ?_, rfl, isEmpty_eq hw h a⟩
    intro name hname
    rcases hname with rfl | hn
    · rfl
    · cases exactNames with
      | true => rfl
      | false => exact hsmall.foldedAttr_eq hn
  untold _ _ := ⟨rfl, rfl⟩
  asked_of_folded _ hn := .inr hn

end Dom

namespace Query

variable {dom : Dom}

theorem consistent_bareTree (h : dom.Forest) : dom.bareTree.Consistent :=
  h.consistent.of_links rfl rfl rfl rfl rfl

theorem sameShape_bareTree (dom : Dom) : dom.toTree.SameShape dom.bareTree :=
  ⟨rfl, rfl, rfl, rfl, rfl, rfl⟩

theorem holdsAt_bareTree (hdom : dom.Built) (hw : dom.Whole) (hsmall : dom.SmallNamed)
    (source : String) (selectors : SelectorList) (options : Options) (node : Node) :
    (ofSelectors source selectors options).holdsAt dom.bareTree node =
      (ofSelectors source selectors options).holdsAt dom.toTree node := by
  have h := hdom.forest
  have hmirrors := Dom.mirrors_bareTree hw h hsmall options.exactNames
  rw [holdsAt_eq_anyFit h.consistent, holdsAt_eq_anyFit (consistent_bareTree h)]
  exact (hmirrors.anyFit_eq h.consistent (consistent_bareTree h) rfl
    (asksOnly_lowerList selectors)).symm

-- A query answers the same whether a document is asked itself, or shows its names and
-- links only and all else follows from them.
theorem answers_bareTree (hdom : dom.Built) (hw : dom.Whole) (hsmall : dom.SmallNamed)
    (hi : dom.index = none) (source : String) (selectors : SelectorList) (options : Options) :
    (∀ node, (ofSelectors source selectors options).accepts dom.bareTree node =
      (ofSelectors source selectors options).accepts dom.toTree node) ∧
    ∀ roots mode, (ofSelectors source selectors options).select dom.bareTree roots mode =
      (ofSelectors source selectors options).select dom.toTree roots mode := by
  have hholds := holdsAt_bareTree hdom hw hsmall source selectors options
  have hids : dom.bareTree.elementsWithId = dom.toTree.elementsWithId :=
    (funext (dom.elementsWithId_eq_none hi)).symm
  constructor
  · intro node
    rw [accepts, accepts, hholds]
  · intro roots mode
    rw [select_eq _ (consistent_bareTree hdom.forest), select_eq _ hdom.forest.consistent, found,
      found, candidates_of_sameShape (sameShape_bareTree dom) hids, funext hholds]

-- A list with two classes that holds a blank and a comment.
def menuAttributes : Attributes := .ofList [("class", "wide menu"), ("lang", "de")]

def menu : Dom :=
  (((Dom.new.adopt Dom.root (.element "ul" menuAttributes)).2.adopt 1 (.text " ")).2.adopt 1
    (.comment "none")).2

def blankMenu : Compound :=
  [.hasClass "menu", .hasAttribute ⟨"LANG", .exists, .exact⟩, .keyword .empty]

def emptyMenu : SelectorList := [⟨blankMenu, []⟩]

theorem ofDescriptions_menu : Dom.ofDescriptions .byName
    [.element "ul" menuAttributes.sort [.text " ", .comment "none"]] = .ok menu := rfl

theorem smallNamed_menu : menu.SmallNamed := by
  have hnew : Dom.new.SmallNamed := by
    intro node tag attrs hc
    cases node <;> simp [Dom.content?, Dom.get?, Dom.new] at hc
  have hlist : ∀ tag attrs, Content.element "ul" menuAttributes = .element tag attrs →
      attrs.SmallNamed := by
    intro tag attrs he
    obtain ⟨-, rfl⟩ := Content.element.inj he
    have hpairs : menuAttributes.pairs = [("class", "wide menu"), ("lang", "de")] := by
      with_unfolding_all rfl
    rw [Attributes.SmallNamed, hpairs]
    simp
  exact ((hnew.adopt _ hlist).adopt _ (by simp)).adopt _ (by simp)

theorem answers_bareTree_menu :
    menu.Built ∧ menu.Whole ∧ menu.SmallNamed ∧ menu.index = none ∧
      (ofSelectors ".menu[LANG]:empty" emptyMenu {}).accepts menu.bareTree 1 = .ok true ∧
      (ofSelectors ".menu[LANG]:empty" emptyMenu {}).select menu.bareTree [1, 0] .all =
        .ok [1] := by
  have hbuilt := Dom.built_ofDescriptions ofDescriptions_menu
  have hwhole := Dom.whole_ofDescriptions ofDescriptions_menu
  obtain ⟨haccepts, hselect⟩ := answers_bareTree hbuilt hwhole smallNamed_menu rfl
    ".menu[LANG]:empty" emptyMenu {}
  have hsort : sortTests (lowerSimples false blankMenu) = lowerSimples false blankMenu :=
    sortTests_of_pairwise (by decide)
  have hone : (ofSelectors ".menu[LANG]:empty" emptyMenu {}).accepts menu.toTree 1 = .ok true := by
    simp only [ofSelectors, emptyMenu, lowerList, lowerComplex, hsort]
    with_unfolding_all rfl
  have hall : (ofSelectors ".menu[LANG]:empty" emptyMenu {}).select menu.toTree [1, 0] .all =
      .ok [1] := by
    simp only [ofSelectors, emptyMenu, lowerList, lowerComplex, hsort]
    with_unfolding_all rfl
  exact ⟨hbuilt, hwhole, smallNamed_menu, rfl, (haccepts 1).trans hone,
    (hselect [1, 0] .all).trans hall⟩

end Query

end CssQuery
