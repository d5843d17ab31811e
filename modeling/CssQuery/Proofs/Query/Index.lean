import CssQuery.Proofs.Dom.Index
import CssQuery.Proofs.Query.Likeness
import CssQuery.Proofs.Query.Seeds

namespace CssQuery

-- The same scene with other answers from an index.
def Scene.answering (scene : Scene) (answers : String → Option (List Node)) : Scene :=
  { scene with tree := { scene.tree with elementsWithId := answers } }

theorem consistent_answering {scene : Scene} (h : scene.tree.Consistent)
    (answers : String → Option (List Node)) : (scene.answering answers).tree.Consistent :=
  h.of_links rfl rfl rfl rfl rfl

-- No test of an element asks an index.
theorem anyFit_answering {scene : Scene} (h : scene.tree.Consistent)
    (answers : String → Option (List Node)) (node : Node) (chains : List Chain) :
    anyFit (scene.answering answers) node chains = anyFit scene node chains := by
  have hlike : scene.Like (scene.answering answers) Eq := .of_eq rfl rfl rfl
  refine (anyFit_congr hlike h (consistent_answering h answers) rfl chains ?_).symm
  rintro leaf _ hplain a _ rfl _
  cases leaf with
  | keyword keyword => cases keyword <;> rfl
  | nthChild edge formula among =>
      cases among with
      | none => rfl
      | some chains => simp [Test.isPlain] at hplain
  | noneOf chains | anyOf chains => simp [Test.isPlain] at hplain
  | _ => rfl

namespace Query

variable {dom : Dom} {query : Query} {root a : Node}

theorem holdsAt_eq_anyFit {tree : Tree} (h : tree.Consistent) :
    query.holdsAt tree a = anyFit (query.scene tree) a query.chains := by
  have hg : (query.scene tree).Gives _ _ := anyHolds_gives h a query.chains
  exact hg.alone_eq

theorem holdsAt_buildIndex (hdom : dom.Built) :
    query.holdsAt dom.buildIndex.toTree a = query.holdsAt dom.toTree a := by
  rw [holdsAt_eq_anyFit hdom.buildIndex.forest.consistent,
    holdsAt_eq_anyFit hdom.forest.consistent]
  have hscene : query.scene dom.buildIndex.toTree =
      (query.scene dom.toTree).answering dom.buildIndex.elementsWithId := rfl
  rw [hscene, anyFit_answering hdom.forest.consistent]

-- Of the elements that a walk would find, an index gives those below the document.
theorem mem_found_buildIndex (hdom : dom.Built) (query : Query) (hne : query.chains ≠ []) :
    a ∈ query.found dom.buildIndex.toTree [root] ↔ a ∈ query.acceptedBelow dom root [root] ∧
      (query.seeds? = none ∨ dom.isDescendantOf a Dom.root = true) := by
  have h := hdom.forest.consistent
  have hi := hdom.buildIndex.forest.consistent
  have hanswers := dom.elementsWithId_buildIndex
  rw [mem_acceptedBelow hdom.forest hne (by simp)]
  cases hs : query.seeds? with
  | none =>
      rw [found, candidates_of_walk (.inl hs), List.mem_filter, holdsAt_buildIndex hdom,
        hi.mem_elementsBelow, hi.below_topmost]
      constructor
      · rintro ⟨⟨he, hb⟩, ha⟩
        exact ⟨⟨he, hb, ha⟩, .inl rfl⟩
      · rintro ⟨⟨he, hb, ha⟩, -⟩
        exact ⟨⟨he, hb⟩, ha⟩
  | some ids =>
      have hids : ∀ chain ∈ query.chains, chain.id? ≠ none := by
        intro chain hm hid
        simp [seeds?_eq_none.2 (.inr ⟨chain, hm, hid⟩)] at hs
      have hn : ∀ id ∈ ids, dom.buildIndex.toTree.elementsWithId id ≠ none := by
        intro id _ hn
        exact Option.some_ne_none _ ((hanswers id).symm.trans hn)
      rw [mem_found_of_lookup hi hs hn, holdsAt_buildIndex hdom]
      constructor
      · rintro ⟨⟨⟨id, -, nodes, hnodes, hm⟩, hb⟩, ha⟩
        obtain rfl := Option.some.inj ((hanswers id).symm.trans hnodes)
        have hbelow : dom.toTree.Below a Dom.root :=
          hdom.forest.mem_descendants.1 (List.mem_filter.1 hm).1
        have he := (id_of_holdsAt h hids ha).1
        exact ⟨⟨he, hb, ha⟩, .inr (hdom.forest.isDescendantOf_iff_below.2 hbelow)⟩
      · rintro ⟨⟨he, hb, ha⟩, hbelow⟩
        obtain ⟨-, chain, hm, id, hid, hown⟩ := id_of_holdsAt h hids ha
        have hseed : id ∈ ids := (mem_seeds hs).2 ⟨chain, hm, hid⟩
        have hlisted : a ∈ (dom.descendants Dom.root).filter fun node => dom.id node = some id := by
          rw [List.mem_filter, hdom.forest.mem_descendants, ← hdom.forest.isDescendantOf_iff_below]
          exact ⟨hbelow.resolve_left (by simp), decide_eq_true hown⟩
        exact ⟨⟨⟨id, hseed, _, hanswers id, hlisted⟩, hb⟩, ha⟩

-- An index changes what is found only where a match is not part of the document.
theorem found_buildIndex_eq_iff (hdom : dom.Built) (query : Query) (hne : query.chains ≠ []) :
    query.found dom.buildIndex.toTree [root] = query.acceptedBelow dom root [root] ↔
      query.seeds? = none ∨ ∀ a ∈ query.acceptedBelow dom root [root],
        dom.isDescendantOf a Dom.root = true := by
  have h := hdom.forest.consistent
  have hi := hdom.buildIndex.forest.consistent
  constructor
  · intro he
    rw [or_iff_not_imp_left]
    intro hs a ha
    rw [← he] at ha
    exact ((mem_found_buildIndex hdom query hne).1 ha).2.resolve_left hs
  · intro hseen
    have hself := dom.toTree.connected_singleton root
    have hfound : (query.found dom.buildIndex.toTree [root]).Pairwise dom.toTree.Before :=
      found_pairwise hi query hself
    apply h.eq_of_pairwise hfound ((hdom.forest.descendantsWithin_pairwise _ _).filter _)
    intro a
    rw [mem_found_buildIndex hdom query hne]
    apply and_iff_left_of_imp
    intro ha
    exact hseen.imp_right fun hb => hb a ha

theorem selectAll_eq {tree : Tree} (h : tree.Consistent) (hne : query.chains ≠ []) :
    query.selectAll tree root = .ok (query.found tree [root]) := by
  rw [selectAll, select_eq query h, checked_eq hne]
  rfl

theorem selectOne_eq {tree : Tree} (h : tree.Consistent) (hne : query.chains ≠ []) :
    query.selectOne tree root = .ok (query.found tree [root]).head? := by
  rw [selectOne, select_eq query h, checked_eq hne]
  refine congrArg Except.ok ?_
  cases query.found tree [root] <;> rfl

-- A query finds the same below a root whether or not it may use an index, and whether
-- or not there is one.
def IndexUnseen (dom : Dom) (compiled : Bool → Query) (root : Node) : Prop :=
  ∀ uses, ∀ indexed ∈ [dom, dom.buildIndex],
    (compiled uses).selectAll indexed.toTree root = (compiled false).selectAll dom.toTree root ∧
    (compiled uses).selectOne indexed.toTree root = (compiled false).selectOne dom.toTree root

-- The same query, compiled to use an index or not to.
def withIdIndex (query : Query) (uses : Bool) : Query := { query with usesIdIndex := uses }

theorem seeds?_withIdIndex {uses : Bool} : (query.withIdIndex uses).seeds? = none ↔
    uses = false ∨ ∃ chain ∈ query.chains, chain.id? = none :=
  seeds?_eq_none

theorem indexUnseen_withIdIndex (hdom : dom.Built) (hindex : dom.index = none) (query : Query)
    (hne : query.chains ≠ []) (root : Node) : IndexUnseen dom query.withIdIndex root ↔
      (∃ chain ∈ query.chains, chain.id? = none) ∨
        ∀ a ∈ query.acceptedBelow dom root [root], dom.isDescendantOf a Dom.root = true := by
  have h := hdom.forest.consistent
  have hi := hdom.buildIndex.forest.consistent
  have hchains : ∀ uses, (query.withIdIndex uses).chains ≠ [] := fun _ => hne
  have hwalk : ∀ uses, (query.withIdIndex uses).found dom.toTree [root] =
      query.acceptedBelow dom root [root] := by
    intro uses
    exact found_eq_acceptedBelow hdom.forest (query.withIdIndex uses) hne (.inr hindex) (by simp)
  have hindexed : ∀ uses, (query.withIdIndex uses).found dom.buildIndex.toTree [root] =
      query.acceptedBelow dom root [root] ↔
        (uses = false ∨ ∃ chain ∈ query.chains, chain.id? = none) ∨
          ∀ a ∈ query.acceptedBelow dom root [root], dom.isDescendantOf a Dom.root = true := by
    intro uses
    refine (found_buildIndex_eq_iff hdom (query.withIdIndex uses) hne).trans ?_
    exact or_congr_left seeds?_withIdIndex
  constructor
  · intro hunseen
    have hall := (hunseen true dom.buildIndex (by simp)).1
    rw [selectAll_eq hi (hchains true), selectAll_eq h (hchains false), Except.ok.injEq, hwalk,
      hindexed] at hall
    exact hall.imp_left fun hs => hs.resolve_left (by simp)
  · intro hseen uses indexed hmem
    rcases List.mem_pair.1 hmem with rfl | rfl
    · rw [selectAll_eq h (hchains uses), selectOne_eq h (hchains uses),
        selectAll_eq h (hchains false), selectOne_eq h (hchains false), hwalk, hwalk]
      exact ⟨rfl, rfl⟩
    · rw [selectAll_eq hi (hchains uses), selectOne_eq hi (hchains uses),
        selectAll_eq h (hchains false), selectOne_eq h (hchains false), hwalk,
        (hindexed uses).2 (hseen.imp_left .inr)]
      exact ⟨rfl, rfl⟩

theorem compile_eq_ok {text : String} {options : Options} :
    compile text options = .ok query ↔ ∃ selectors,
      SelectorList.ofText text options.maxNesting = .ok selectors ∧
        ofSelectors text selectors options = query := by
  rw [compile]
  cases SelectorList.ofText text options.maxNesting <;> simp [Except.map]

-- An index goes unseen exactly when some branch has no id to look up, or when all that
-- a walk finds below the root is part of the document.
theorem indexUnseen_iff (hdom : dom.Built) (hindex : dom.index = none) (text : String)
    (options : Options) {compiled : Bool → Query}
    (hcompile : ∀ uses, compile text { options with usesIdIndex := uses } = .ok (compiled uses))
    (root : Node) :
    IndexUnseen dom compiled root ↔
      (∃ chain ∈ (compiled true).chains, chain.id? = none) ∨
        ∀ a ∈ (compiled false).acceptedBelow dom root [root],
          dom.isDescendantOf a Dom.root = true := by
  obtain ⟨selectors, hread, -⟩ := compile_eq_ok.1 (hcompile true)
  obtain rfl : compiled = (ofSelectors text selectors options).withIdIndex := by
    funext uses
    obtain ⟨other, ho, hq⟩ := compile_eq_ok.1 (hcompile uses)
    obtain rfl := Except.ok.inj (hread.symm.trans ho)
    exact hq.symm
  refine indexUnseen_withIdIndex hdom hindex _ ?_ root
  rw [← List.isEmpty_eq_false_iff, ofSelectors, lowerList_isEmpty, List.isEmpty_eq_false_iff]
  exact SelectorList.ofText_ne_nil hread

theorem compile_byId (uses : Bool) :
    compile "#x" { usesIdIndex := uses } = .ok (byId uses) := by
  cases uses <;> with_unfolding_all rfl

-- A division with a paragraph in it. Another paragraph of the same id was never appended.
def doubled : Dom :=
  (((Dom.new.adopt Dom.root (.element "div" .empty)).2.adopt 1
    (.element "p" (.ofList [("id", "x")]))).2.create (.element "p" (.ofList [("id", "x")]))).2

theorem built_doubled : doubled.Built := by
  have hone : (Dom.new.adopt Dom.root (.element "div" .empty)).2.Built :=
    Dom.Built.new.adopt (by decide) _
  exact (hone.adopt (by decide) _).create _

theorem indexUnseen_iff_doubled : doubled.Built ∧ doubled.index = none ∧
    (∀ uses, compile "#x" { usesIdIndex := uses } = .ok (byId uses)) ∧
    (byId false).acceptedBelow doubled 1 [1] = [2] ∧ IndexUnseen doubled byId 1 := by
  have hfound : (byId false).acceptedBelow doubled 1 [1] = [2] := by with_unfolding_all rfl
  have hattached : ∀ a ∈ (byId false).acceptedBelow doubled 1 [1],
      doubled.isDescendantOf a Dom.root = true := by
    rw [hfound]
    decide
  exact ⟨built_doubled, rfl, compile_byId, hfound,
    (indexUnseen_iff built_doubled rfl "#x" {} compile_byId 1).2 (.inr hattached)⟩

-- A division that was never appended to the document, and holds a paragraph with an id.
def detached : Dom :=
  ((Dom.new.create (.element "div" .empty)).2.adopt 1 (.element "p" (.ofList [("id", "x")]))).2

theorem built_detached : detached.Built :=
  (Dom.Built.new.create (.element "div" .empty)).adopt (by decide) _

-- Below it, the index has no answer for the paragraph that a walk finds.
theorem not_forall_indexUnseen : ¬ ∀ (dom : Dom) (text : String) (options : Options)
    (compiled : Bool → Query), dom.Built → dom.index = none →
    (∀ uses, compile text { options with usesIdIndex := uses } = .ok (compiled uses)) →
    ∀ root < dom.size, IndexUnseen dom compiled root := by
  intro hunseen
  have hseen := hunseen detached "#x" {} byId built_detached rfl compile_byId 1 (by decide)
  have hwalk : (byId false).acceptedBelow detached 1 [1] = [2] := by with_unfolding_all rfl
  have hne : (byId false).chains ≠ [] := by simp [chains_byId]
  obtain ⟨chain, hm, hid⟩ | hattached :=
    (indexUnseen_withIdIndex built_detached rfl (byId false) hne 1).1 hseen
  · rw [chains_byId, List.mem_singleton] at hm
    subst hm
    cases hid
  · rw [hwalk] at hattached
    exact absurd (hattached 2 (List.mem_singleton_self 2)) (by decide)

end Query

end CssQuery
