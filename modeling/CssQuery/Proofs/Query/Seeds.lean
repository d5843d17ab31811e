import CssQuery.Proofs.Query.Traversal

namespace CssQuery

variable {scene : Scene} {tree : Tree} {query : Query} {chain : Chain} {id : String} {a : Node}
  {roots : List Node}

theorem anyFit_iff {chains : List Chain} :
    anyFit scene a chains = true ↔ ∃ chain ∈ chains, chain.fits scene a = true := by
  induction chains with
  | nil => simp [anyFit]
  | cons chain more ih => simp [anyFit, ih]

-- A chain begins at an element that passes the tests of its subject.
theorem Chain.tests_of_fits (hf : chain.fits scene a = true) :
    scene.tree.isElement a = true ∧ ∀ test ∈ chain.tests, test.fits scene a = true := by
  cases chain with
  | last tests =>
      rw [Chain.fits, allFit_eq_all, Bool.and_eq_true_iff, List.all_eq_true] at hf
      exact hf
  | link tests combinator outer =>
      rw [Chain.fits, allFit_eq_all, Bool.and_eq_true_iff, Bool.and_eq_true_iff,
        List.all_eq_true] at hf
      exact hf.1

theorem Chain.id_of_fits (hf : chain.fits scene a = true) (hid : chain.id? = some id) :
    scene.tree.id a = some id := by
  obtain ⟨test, hm, ht⟩ := List.exists_of_findSome?_eq_some hid
  have hfits := (Chain.tests_of_fits hf).2 test hm
  cases test with
  | hasId own =>
      obtain rfl := Option.some.inj ht
      simpa [Test.fits] using hfits
  | _ => simp [Test.id?] at ht

namespace Query

-- What a query holds at is an element with the id of one of its chains.
theorem id_of_holdsAt (h : tree.Consistent) (hids : ∀ chain ∈ query.chains, chain.id? ≠ none)
    (ha : query.holdsAt tree a = true) : tree.isElement a = true ∧
      ∃ chain ∈ query.chains, ∃ id, chain.id? = some id ∧ tree.id a = some id := by
  have hg : (query.scene tree).Gives _ _ := anyHolds_gives h a query.chains
  obtain ⟨chain, hc, hf⟩ := anyFit_iff.1 (hg.alone_eq.symm.trans ha)
  obtain ⟨id, hid⟩ := Option.ne_none_iff_exists'.1 (hids chain hc)
  exact ⟨(Chain.tests_of_fits hf).1, chain, hc, id, hid, Chain.id_of_fits hf hid⟩

theorem mem_lookup? {ids : List String} {found : List Node} (h : tree.Consistent)
    (hl : tree.lookup? roots ids = some found) : a ∈ found ↔
      (∃ id ∈ ids, ∃ nodes, tree.elementsWithId id = some nodes ∧ a ∈ nodes) ∧
        ∃ r ∈ roots, tree.Below a r := by
  obtain ⟨lists, hm, hs⟩ := Option.bind_eq_some_iff.1 hl
  obtain rfl := Option.some.inj hs
  rw [(Tree.sort_perm _).mem_iff, List.mem_eraseDups, List.mem_filter, List.mem_flatten]
  simp only [List.any_eq_true, decide_eq_true_eq, h.mem_ancestors, mem_of_mapM hm]
  constructor
  · rintro ⟨⟨nodes, ⟨id, hi, hn⟩, ha⟩, r, hb, hr⟩
    exact ⟨⟨id, hi, nodes, hn, ha⟩, r, hr, hb⟩
  · rintro ⟨⟨id, hi, nodes, hn, ha⟩, r, hr, hb⟩
    exact ⟨⟨nodes, ⟨id, hi, hn⟩, ha⟩, r, hb, hr⟩

theorem lookup?_pairwise {ids : List String} {found : List Node} (h : tree.Consistent)
    (hc : ∀ a ∈ roots, ∀ b ∈ roots, tree.Connected a b)
    (hl : tree.lookup? roots ids = some found) : found.Pairwise tree.Before := by
  have hm := fun a => mem_lookup? (a := a) h hl
  obtain ⟨lists, -, hs⟩ := Option.bind_eq_some_iff.1 hl
  obtain rfl := Option.some.inj hs
  apply h.sort_pairwise_of_connected (nodup_eraseDups _)
  intro a ha b hb
  obtain ⟨-, r, hr, har⟩ := (hm a).1 ((Tree.sort_perm _).mem_iff.2 ha)
  obtain ⟨-, s, hs, hbs⟩ := (hm b).1 ((Tree.sort_perm _).mem_iff.2 hb)
  have hra : tree.Connected a r := har.inside.connected
  have hsb : tree.Connected s b := hbs.inside.connected.symm _ _
  exact (hra.trans _ _ _ (hc r hr s hs)).trans _ _ _ hsb

-- Matches come in document order, wherever their candidates come from.
theorem found_pairwise (h : tree.Consistent) (query : Query)
    (hc : ∀ a ∈ roots, ∀ b ∈ roots, tree.Connected a b) :
    (query.found tree roots).Pairwise tree.Before := by
  have htop : ∀ a ∈ tree.topmost roots, ∀ b ∈ tree.topmost roots, tree.Connected a b := by
    intro a ha b hb
    exact hc a (Tree.mem_topmost.1 ha).1 b (Tree.mem_topmost.1 hb).1
  refine List.Pairwise.filter _ ?_
  unfold candidates
  cases hs : query.seeds? with
  | none => exact h.elementsBelow_pairwise hc
  | some ids =>
      simp only [Option.bind_some]
      cases hl : tree.lookup? (tree.topmost roots) ids with
      | none => exact h.elementsBelow_pairwise hc
      | some nodes => exact lookup?_pairwise h htop hl

-- Where no id is left unanswered, the matches are looked up.
theorem mem_found_of_lookup (h : tree.Consistent) {ids : List String}
    (hs : query.seeds? = some ids) (hn : ∀ id ∈ ids, tree.elementsWithId id ≠ none) :
    a ∈ query.found tree roots ↔
      ((∃ id ∈ ids, ∃ nodes, tree.elementsWithId id = some nodes ∧ a ∈ nodes) ∧
        ∃ r ∈ roots, tree.Below a r) ∧ query.holdsAt tree a = true := by
  obtain ⟨nodes, hl⟩ : ∃ nodes, tree.lookup? (tree.topmost roots) ids = some nodes := by
    apply Option.ne_none_iff_exists'.1
    intro hl
    obtain ⟨id, hi, hnone⟩ := lookup?_eq_none.1 hl
    exact hn id hi hnone
  have hcandidates : query.candidates tree roots = nodes := by
    simp only [candidates, hs, Option.bind_some, hl]
  rw [found, hcandidates, List.mem_filter, mem_lookup? h hl, h.below_topmost]

-- Whether an index leaves an id of the query unanswered, or its answers lack no element
-- below a root.
def Answered (query : Query) (tree : Tree) (roots : List Node) : Prop :=
  (∃ chain ∈ query.chains, ∃ id, chain.id? = some id ∧ tree.elementsWithId id = none) ∨
    ∀ chain ∈ query.chains, ∀ id, chain.id? = some id →
      ∃ nodes, tree.elementsWithId id = some nodes ∧ ∀ a, tree.isElement a = true →
        tree.id a = some id → (∃ r ∈ roots, tree.Below a r) → a ∈ nodes

theorem found_seeded (h : tree.Consistent) (query : Query)
    (hids : ∀ chain ∈ query.chains, chain.id? ≠ none)
    (hc : ∀ a ∈ roots, ∀ b ∈ roots, tree.Connected a b) (hanswer : query.Answered tree roots) :
    query.found tree roots =
      (tree.elementsBelow (tree.topmost roots)).filter (query.holdsAt tree) := by
  rcases hanswer with hnone | hlists
  · rw [found, candidates_of_walk (.inr hnone)]
  · cases hs : query.seeds? with
    | none => rw [found, candidates_of_walk (.inl hs)]
    | some ids =>
        have hn : ∀ id ∈ ids, tree.elementsWithId id ≠ none := by
          intro id hi hn
          obtain ⟨chain, hm, hid⟩ := (mem_seeds hs).1 hi
          obtain ⟨nodes, hnodes, -⟩ := hlists chain hm id hid
          simp [hn] at hnodes
        have hwalk := (h.elementsBelow_pairwise hc).filter (query.holdsAt tree)
        apply h.eq_of_pairwise (found_pairwise h query hc) hwalk
        intro a
        rw [mem_found_of_lookup h hs hn, List.mem_filter, h.mem_elementsBelow, h.below_topmost]
        refine and_congr_left fun ha => and_congr_left fun hb => ?_
        -- a match has the id of a chain, so the list of that id holds it
        obtain ⟨he, chain, hm, id, hid, hown⟩ := id_of_holdsAt h hids ha
        obtain ⟨nodes, hnodes, hall⟩ := hlists chain hm id hid
        exact iff_of_true ⟨id, (mem_seeds hs).2 ⟨chain, hm, hid⟩, nodes, hnodes,
          hall a he hown hb⟩ he

-- Whatever else the lists of an index hold, a query finds by them what it finds without.
theorem select_seeded_eq_walk (h : tree.Consistent) (query : Query)
    (hids : ∀ chain ∈ query.chains, chain.id? ≠ none)
    (hc : ∀ a ∈ roots, ∀ b ∈ roots, tree.Connected a b)
    (hanswer : query.Answered tree roots) (mode : SelectMode) :
    { query with usesIdIndex := true }.select tree roots mode =
      { query with usesIdIndex := false }.select tree roots mode := by
  have hseeded := found_seeded h { query with usesIdIndex := true } hids hc hanswer
  have hwalk := found_seeded h { query with usesIdIndex := false } hids hc hanswer
  refine (select_eq _ h roots mode).trans (Eq.trans ?_ (select_eq _ h roots mode).symm)
  rw [hseeded, hwalk]
  rfl

-- A division that holds a paragraph with an id, seen with an index that has the paragraph
-- twice, the document, and a node that does not exist.
def labelled : Dom :=
  ((Dom.new.adopt Dom.root (.element "div" .empty)).2.adopt 1
    (.element "p" (.ofList [("id", "x")]))).2

def sloppy : Tree := { labelled.toTree with elementsWithId := fun _ => some [7, 2, 0, 2] }

theorem built_labelled : labelled.Built :=
  (Dom.Built.new.adopt (by decide) _).adopt (by rw [Dom.size_adopt]; decide) _

theorem consistent_sloppy : sloppy.Consistent :=
  built_labelled.forest.consistent.of_links rfl rfl rfl rfl rfl

def byId (uses : Bool) : Query :=
  ofSelectors "#x" [⟨[.hasId "x"], []⟩] { usesIdIndex := uses }

theorem chains_byId (uses : Bool) : (byId uses).chains = [.last [.hasId "x"]] := by
  cases uses <;> with_unfolding_all rfl

theorem answered_sloppy : (byId true).Answered sloppy [1, 0] := by
  refine .inr fun chain _ id hid => ⟨_, rfl, fun a _ hown ⟨r, hr, hb⟩ => ?_⟩
  have hbelow : labelled.toTree.Below a 0 := by
    rcases List.mem_pair.1 hr with rfl | rfl
    · exact hb.trans (built_labelled.forest.isDescendantOf_iff_below.1 (by decide))
    · exact hb
  have hdescendants : labelled.descendants 0 = [1, 2] := by with_unfolding_all rfl
  have hmem := built_labelled.forest.mem_descendants.2 hbelow
  rw [hdescendants] at hmem
  rcases List.mem_pair.1 hmem with rfl | rfl
  · have hnone : sloppy.id 1 = none := by with_unfolding_all rfl
    simp [hnone] at hown
  · simp

theorem select_seeded_eq_walk_sloppy :
    sloppy.Consistent ∧ (∀ chain ∈ (byId true).chains, chain.id? ≠ none) ∧
      (∀ a ∈ [1, 0], ∀ b ∈ [1, 0], sloppy.Connected a b) ∧ (byId true).Answered sloppy [1, 0] ∧
      (byId true).select sloppy [1, 0] .all = (byId false).select sloppy [1, 0] .all ∧
      (byId true).select sloppy [1, 0] .all = .ok [2] := by
  have hids : ∀ chain ∈ (byId true).chains, chain.id? ≠ none := by
    rw [chains_byId]
    decide
  have hinside : ∀ a ∈ [1, 0], sloppy.Inside a 0 := by
    have hbelow : sloppy.Below 1 0 :=
      built_labelled.forest.isDescendantOf_iff_below.1 (by decide)
    simp [Tree.Inside, hbelow]
  have hc : ∀ a ∈ [1, 0], ∀ b ∈ [1, 0], sloppy.Connected a b := by
    intro a ha b hb
    exact Tree.connected_of_inside (hinside a ha) (hinside b hb)
  have hsame : (byId true).select sloppy [1, 0] .all = (byId false).select sloppy [1, 0] .all :=
    select_seeded_eq_walk consistent_sloppy (byId true) hids hc answered_sloppy .all
  have hwalk : (byId false).select sloppy [1, 0] .all = .ok [2] := by with_unfolding_all rfl
  exact ⟨consistent_sloppy, hids, hc, answered_sloppy, hsame, hsame.trans hwalk⟩

end Query

end CssQuery
