import CssQuery.Proofs.Query.Structural

namespace CssQuery

namespace Tree

variable (tree : Tree)

def ParentElement (node parent : Node) : Prop :=
  tree.parent node = some parent ∧ tree.isElement parent = true

-- An element among the siblings before a node.
def ElementBefore (node x : Node) : Prop :=
  tree.Earlier x node ∧ tree.isElement x = true

-- How the element on the left of a combinator lies to the one on its right.
def Joins : Combinator → Node → Node → Prop
  | .child, node, outer => tree.ParentElement node outer
  | .descendant, node, outer => Relation.TransGen tree.ParentElement node outer
  | .nextSibling, node, outer => tree.ElementBefore node outer ∧
      ∀ x, tree.ElementBefore node x → ¬ tree.Earlier outer x
  | .subsequentSibling, node, outer => tree.ElementBefore node outer

-- What lies outward of a node: itself, and whatever steps to a parent element or to an
-- element before it lead to, in any order.
def Surrounds (node : Node) : Node → Prop :=
  Relation.ReflTransGen (fun a b => tree.ParentElement a b ∨ tree.ElementBefore a b) node

end Tree

-- An element that passes all tests of a compound.
def Scene.Meets (scene : Scene) (node : Node) (tests : List Test) : Prop :=
  scene.tree.isElement node = true ∧ ∀ test ∈ tests, test.fits scene node = true

-- Elements that satisfy a chain one by one, its subject first. Each is joined to the next
-- by the combinator between them.
inductive Chain.MadeOf (scene : Scene) : Chain → List Node → Prop
  | last {tests : List Test} {node : Node} (hnode : scene.Meets node tests) :
      MadeOf scene (.last tests) [node]
  | link {tests : List Test} {combinator : Combinator} {outer : Chain} {node next : Node}
      {more : List Node} (hnode : scene.Meets node tests)
      (hjoins : scene.tree.Joins combinator node next) (hmore : MadeOf scene outer (next :: more)) :
      MadeOf scene (.link tests combinator outer) (node :: next :: more)

-- Some elements make the chain, and the given one is its subject.
def Chain.StartsAt (scene : Scene) (chain : Chain) (node : Node) : Prop :=
  ∃ more, chain.MadeOf scene (node :: more)

section Exhaustive

variable {scene : Scene} {combinator : Combinator} {outcome : Outcome} {node x y : Node}
  {before after : List Node}

theorem Scene.meets_iff {tests : List Test} : scene.Meets node tests ↔
    (scene.tree.isElement node && allFit scene node tests) = true := by
  rw [Meets, allFit_eq_all, Bool.and_eq_true_iff, List.all_eq_true]

theorem Tree.Consistent.mem_reached {tree : Tree} (h : tree.Consistent) :
    x ∈ tree.reached combinator node ↔ tree.Joins combinator node x := by
  cases combinator with
  | child =>
      simp only [Tree.reached, Option.mem_toList, Tree.parentElement_eq_some, Tree.Joins,
        Tree.ParentElement]
  | descendant =>
      have hstep : (fun a b => tree.parentElement a = some b) = tree.ParentElement := by
        funext a b
        exact propext Tree.parentElement_eq_some
      rw [Tree.reached, h.mem_ancestorElements, Met, hstep, Tree.Joins]
  | nextSibling =>
      simp only [Tree.reached, Option.mem_toList, h.prevElement_iff, h.mem_precedingElements_iff,
        Tree.Joins, Tree.ElementBefore]
  | subsequentSibling => exact h.mem_precedingElements_iff

theorem Tree.Consistent.surrounds_iff {tree : Tree} (h : tree.Consistent) :
    tree.Surrounds node x ↔ tree.Reaches node x := by
  have hstep : (fun a b => tree.ParentElement a b ∨ tree.ElementBefore a b) = tree.Outward := by
    funext a b
    rw [Tree.Outward, Tree.parentElement_eq_some, h.mem_precedingElements_iff]
    rfl
  rw [Tree.Surrounds, hstep, Tree.Reaches]

-- Trying all elements that a combinator leads to finds out whether a chain can be made.
theorem Chain.fits_iff (h : scene.tree.Consistent) (node : Node) (chain : Chain) :
    chain.fits scene node = true ↔ chain.StartsAt scene node := by
  cases chain with
  | last tests =>
      rw [Chain.fits, ← Scene.meets_iff]
      constructor
      · exact fun hnode => ⟨[], .last hnode⟩
      · rintro ⟨_, hmade⟩
        cases hmade with
        | last hnode => exact hnode
  | link tests combinator outer =>
      rw [Chain.fits, Bool.and_eq_true_iff, ← Scene.meets_iff, List.any_eq_true]
      constructor
      · rintro ⟨hnode, next, hnext, hfits⟩
        obtain ⟨more, hmore⟩ := (Chain.fits_iff h next outer).1 hfits
        exact ⟨next :: more, .link hnode (h.mem_reached.1 hnext) hmore⟩
      · rintro ⟨_, hmade⟩
        cases hmade with
        | @link _ _ _ _ next more hnode hjoins hmore =>
            have hfits := (Chain.fits_iff h next outer).2 ⟨more, hmore⟩
            exact ⟨hnode, next, h.mem_reached.2 hjoins, hfits⟩

theorem Chain.fits_eq_false_iff (h : scene.tree.Consistent) {chain : Chain} :
    chain.fits scene node = false ↔ ¬ chain.StartsAt scene node := by
  rw [← Chain.fits_iff h, Bool.not_eq_true]

-- A search that ends early has nothing to look for among the candidates still left.
theorem Tree.Consistent.none_after {tree : Tree} {good : Node → Bool} (h : tree.Consistent)
    (hl : tree.reached combinator node = before ++ x :: after) (ht : outcome.Tells tree good x)
    (hs : combinator.settle? outcome ≠ none) (hf : outcome ≠ .found) :
    ∀ y ∈ after, good y = false := by
  have hsingle {found : Option Node} (hfound : found.toList = before ++ x :: after) :
      after = [] := by
    have hlength := congrArg List.length hfound
    have hle := Option.length_toList_le (o := found)
    simp only [List.length_append, List.length_cons] at hlength
    exact List.eq_nil_of_length_eq_zero (by omega)
  intro y hy
  cases combinator with
  | child => simp [hsingle hl] at hy
  | nextSibling => simp [hsingle hl] at hy
  | descendant =>
      cases outcome with
      | found => exact absurd rfl hf
      | retry | retryAbove => exact absurd rfl hs
      | hopeless => exact ht y (reaches_of_met (met_of_ancestorElements_split hl hy))
  | subsequentSibling =>
      have hbefore := h.mem_precedingElements_of_split hl hy
      cases outcome with
      | found => exact absurd rfl hf
      | retry => exact absurd rfl hs
      | retryAbove => exact ht.2 y hbefore
      | hopeless => exact ht y (.of_outward (.inr hbefore))

-- What the outcome of a search tells of the elements that were not tried.
structure Chain.Means (scene : Scene) (chain : Chain) (node : Node) (outcome : Outcome) :
    Prop where
  found_iff : outcome = .found ↔ chain.StartsAt scene node
  retryAbove : outcome = .retryAbove →
    ∀ x, x = node ∨ scene.tree.ElementBefore node x → ¬ chain.StartsAt scene x
  hopeless : outcome = .hopeless →
    ∀ x, scene.tree.Surrounds node x → ¬ chain.StartsAt scene x

theorem Chain.means_of_tells (h : scene.tree.Consistent) {chain : Chain}
    (ht : outcome.Tells scene.tree (chain.fits scene ·) node) :
    chain.Means scene node outcome where
  found_iff := ht.found_iff.trans (Chain.fits_iff h node chain)
  retryAbove := by
    rintro rfl x (rfl | hx)
    · exact (Chain.fits_eq_false_iff h).1 ht.1
    · exact (Chain.fits_eq_false_iff h).1 (ht.2 x (h.mem_precedingElements_iff.2 hx))
  hopeless := by
    rintro rfl x hx
    exact (Chain.fits_eq_false_iff h).1 (ht x (h.surrounds_iff.1 hx))

-- Whatever was found out before, a search along a chain ends with an outcome that keeps its
-- promise. So a candidate that ends the search of a combinator early hides no other one
-- from which the rest of the chain could be made.
theorem Chain.attempt_means (h : scene.tree.Consistent) (chain : Chain) (node : Node) :
    (∃ outcome, scene.Gives (chain.attempt scene node) outcome ∧
      chain.Means scene node outcome) ∧
    ∀ tests combinator outer, chain = .link tests combinator outer →
      ∀ before x after outcome, scene.tree.reached combinator node = before ++ x :: after →
        scene.Gives (outer.attempt scene x) outcome → combinator.settle? outcome ≠ none →
        outcome ≠ .found → ∀ y ∈ after, ¬ outer.StartsAt scene y := by
  constructor
  · obtain ⟨outcome, hgives, htells⟩ := Chain.attempt_tells h node chain
    exact ⟨outcome, hgives, Chain.means_of_tells h htells⟩
  · rintro tests combinator outer - before x after outcome hl hgives hs hf y hy
    obtain ⟨told, htold, htells⟩ := Chain.attempt_tells h x outer
    obtain rfl : told = outcome := htold.alone_eq.symm.trans hgives.alone_eq
    exact (Chain.fits_eq_false_iff h).1 (h.none_after hl htells hs hf y hy)

end Exhaustive

open Query

-- Items of what is not there, and a paragraph that follows one of them.
def headedItem : Chain := .link [.localName "li"] .child (.last [.localName "h1"])

def behindHeadedItem : Chain := .link [.localName "p"] .subsequentSibling headedItem

-- The search for a headed item ends at the nearest one.
theorem attempt_means_listed : listed.toTree.Consistent ∧
    (behindHeadedItem.attempt (listed.scene false) 5).alone = .retryAbove ∧
    (∀ x, x = 5 ∨ listed.toTree.ElementBefore 5 x →
      ¬ behindHeadedItem.StartsAt (listed.scene false) x) ∧
    listed.toTree.reached .subsequentSibling 5 = [4, 2] ∧
    (headedItem.attempt (listed.scene false) 4).alone = .retryAbove ∧
    ¬ headedItem.StartsAt (listed.scene false) 2 := by
  have h : (listed.scene false).tree.Consistent := built_listed.forest.consistent
  have hwhole : (behindHeadedItem.attempt (listed.scene false) 5).alone = .retryAbove := by
    with_unfolding_all rfl
  have hnear : (headedItem.attempt (listed.scene false) 4).alone = .retryAbove := by
    with_unfolding_all rfl
  have hreached : listed.toTree.reached .subsequentSibling 5 = [] ++ 4 :: [2] := by decide
  obtain ⟨⟨outcome, hgives, hmeans⟩, hearly⟩ := Chain.attempt_means h behindHeadedItem 5
  obtain ⟨⟨near, hnearGives, -⟩, -⟩ := Chain.attempt_means h headedItem 4
  obtain rfl : outcome = .retryAbove := hgives.alone_eq.symm.trans hwhole
  obtain rfl : near = .retryAbove := hnearGives.alone_eq.symm.trans hnear
  have hrest := hearly _ _ _ rfl [] 4 [2] .retryAbove hreached hnearGives
    (by decide) (by decide) 2 (by simp)
  exact ⟨h, hwhole, hmeans.retryAbove rfl, hreached, hnear, hrest⟩

end CssQuery
