import CssQuery.Proofs.Query.Matches
import CssQuery.Proofs.Tree.Roots

namespace CssQuery

variable {α β : Type}

theorem mapM_eq_none {f : α → Option β} {xs : List α} :
    xs.mapM f = none ↔ ∃ x ∈ xs, f x = none := by
  induction xs with
  | nil => simp
  | cons x xs ih =>
      rw [List.mapM_cons]
      cases hx : f x with
      | none => simp [hx]
      | some y =>
          simp only [Option.bind_eq_bind, Option.bind_some, List.mem_cons, exists_eq_or_imp, hx]
          cases hm : xs.mapM f with
          | none => simp [ih.1 hm]
          | some ys => simp [← ih, hm]

theorem mem_of_mapM {f : α → Option β} {xs : List α} {ys : List β} (h : xs.mapM f = some ys)
    {y : β} : y ∈ ys ↔ ∃ x ∈ xs, f x = some y := by
  induction xs generalizing ys with
  | nil =>
      obtain rfl : ys = [] := by simpa using h.symm
      simp
  | cons x xs ih =>
      rw [List.mapM_cons] at h
      obtain ⟨z, hz, h⟩ := Option.bind_eq_some_iff.1 h
      obtain ⟨zs, hzs, h⟩ := Option.bind_eq_some_iff.1 h
      obtain rfl := Option.some.inj h
      simp [hz, ih hzs, eq_comm]

-- The first of the nodes, as far as a number of them is given.
def upTo (limit : Option Nat) (nodes : List Node) : List Node :=
  match limit with
  | none => nodes
  | some count => nodes.take count

theorem upTo_nil (limit : Option Nat) : upTo limit [] = [] := by
  cases limit with
  | none => rfl
  | some count => exact List.take_nil

theorem upTo_cons {limit : Option Nat} (hl : limit ≠ some 0) (node : Node) (more : List Node) :
    upTo limit (node :: more) = node :: upTo (limit.map (· - 1)) more := by
  cases limit with
  | none => rfl
  | some count =>
      have hpos : count ≠ 0 := fun hz => hl (by rw [hz])
      obtain ⟨less, rfl⟩ := Nat.exists_eq_succ_of_ne_zero hpos
      rfl

theorem keepHolding_nil (holds : Node → Matching Bool) (limit : Option Nat) :
    keepHolding holds limit [] = return [] := by
  cases limit with
  | none => rfl
  | some count => cases count <;> rfl

theorem keepHolding_cons {limit : Option Nat} (hl : limit ≠ some 0) (holds : Node → Matching Bool)
    (node : Node) (more : List Node) : keepHolding holds limit (node :: more) = (do
      if ← holds node then return node :: (← keepHolding holds (limit.map (· - 1)) more)
      else keepHolding holds limit more) := by
  cases limit with
  | none => rfl
  | some count =>
      have hpos : count ≠ 0 := fun hz => hl (by rw [hz])
      obtain ⟨less, rfl⟩ := Nat.exists_eq_succ_of_ne_zero hpos
      rfl

theorem keepHolding_gives {scene : Scene} {holds : Node → Matching Bool} {fits : Node → Bool}
    (hh : ∀ node, scene.Gives (holds node) (fits node)) (limit : Option Nat) (nodes : List Node) :
    scene.Gives (keepHolding holds limit nodes) (upTo limit (nodes.filter fits)) := by
  induction nodes generalizing limit with
  | nil =>
      rw [keepHolding_nil, List.filter_nil, upTo_nil]
      exact .pure []
  | cons node more ih =>
      by_cases hl : limit = some 0
      · subst hl
        exact .pure []
      · have hnode := hh node
        rw [keepHolding_cons hl]
        cases hf : fits node with
        | false =>
            rw [hf] at hnode
            rw [List.filter_cons_of_neg (by simp [hf])]
            exact hnode.bind (ih limit)
        | true =>
            rw [hf] at hnode
            rw [List.filter_cons_of_pos hf, upTo_cons hl]
            exact hnode.bind ((ih (limit.map (· - 1))).ret (node :: ·))

-- How many of the matches a mode asks for.
def SelectMode.limit : SelectMode → Option Nat
  | .all => none
  | .first => some 1

namespace Query

variable (query : Query) {tree : Tree} {dom : Dom} {a top root : Node} {roots : List Node}

-- What one candidate leaves behind does not change what is found of the next one.
theorem collect_eq (h : tree.Consistent) (roots : List Node) (limit : Option Nat) :
    query.collect tree roots limit =
      upTo limit ((query.candidates tree roots).filter (query.holdsAt tree)) := by
  have hgives : ∀ a, (query.scene tree).Gives (anyHolds (query.scene tree) a query.chains)
      (anyFit (query.scene tree) a query.chains) := fun a => anyHolds_gives h a query.chains
  have hfits : query.holdsAt tree = fun a => anyFit (query.scene tree) a query.chains :=
    funext fun a => (hgives a).alone_eq
  rw [hfits]
  exact (keepHolding_gives hgives limit _).alone_eq

-- The matches below the roots, among the candidates that are tried for them.
def found (tree : Tree) (roots : List Node) : List Node :=
  (query.candidates tree roots).filter (query.holdsAt tree)

theorem select_eq (h : tree.Consistent) (roots : List Node) (mode : SelectMode) :
    query.select tree roots mode = query.checked (upTo mode.limit (query.found tree roots)) := by
  cases mode <;> exact congrArg query.checked (collect_eq query h roots _)

theorem take_eq (h : tree.Consistent) (root : Node) (count : Nat) :
    query.take tree root count = query.checked ((query.found tree [root]).take count) :=
  congrArg query.checked (collect_eq query h [root] _)

variable {query}

theorem checked_eq (hne : query.chains ≠ []) (answer : α) :
    query.checked answer = .ok answer := by
  rw [checked, List.isEmpty_eq_false_iff.2 hne]
  rfl

theorem lookup?_eq_none {ids : List String} :
    tree.lookup? roots ids = none ↔ ∃ id ∈ ids, tree.elementsWithId id = none := by
  rw [← mapM_eq_none, Tree.lookup?]
  cases ids.mapM tree.elementsWithId <;> simp

theorem seeds?_eq_none :
    query.seeds? = none ↔ query.usesIdIndex = false ∨ ∃ chain ∈ query.chains, chain.id? = none := by
  rw [← mapM_eq_none, seeds?]
  cases query.usesIdIndex <;> simp

theorem mem_seeds {ids : List String} (hs : query.seeds? = some ids) {id : String} :
    id ∈ ids ↔ ∃ chain ∈ query.chains, chain.id? = some id := by
  unfold seeds? at hs
  split at hs
  · exact mem_of_mapM hs
  · simp at hs

-- Without ids to look up, or an index to ask, the elements below the roots are tried.
theorem candidates_of_walk (hs : query.seeds? = none ∨
      ∃ chain ∈ query.chains, ∃ id, chain.id? = some id ∧ tree.elementsWithId id = none) :
    query.candidates tree roots = tree.elementsBelow (tree.topmost roots) := by
  unfold candidates
  cases hq : query.seeds? with
  | none => rfl
  | some ids =>
      obtain ⟨chain, hc, id, hid, hn⟩ := hs.resolve_left (by simp [hq])
      have hl : tree.lookup? (tree.topmost roots) ids = none :=
        lookup?_eq_none.2 ⟨id, (mem_seeds hq).2 ⟨chain, hc, hid⟩, hn⟩
      simp only [Option.bind_some, hl]

-- What is tried comes of the links, the elements and the answers of an index alone.
theorem candidates_of_sameShape {other : Tree} (h : tree.SameShape other)
    (hids : other.elementsWithId = tree.elementsWithId) (query : Query) :
    query.candidates other = query.candidates tree := by
  funext roots
  simp only [candidates, h.topmost, h.lookup? hids, h.elementsBelow]

theorem walks_of_index (hne : query.chains ≠ []) (hi : query.seeds? = none ∨ dom.index = none) :
    query.seeds? = none ∨ ∃ chain ∈ query.chains, ∃ id, chain.id? = some id ∧
      dom.toTree.elementsWithId id = none := by
  refine or_iff_not_imp_left.2 fun hs => ?_
  obtain ⟨chain, hc⟩ := List.exists_mem_of_ne_nil _ hne
  have hsome : chain.id? ≠ none := by
    intro hid
    exact hs (seeds?_eq_none.2 (.inr ⟨chain, hc, hid⟩))
  obtain ⟨id, hid⟩ := Option.ne_none_iff_exists'.1 hsome
  exact ⟨chain, hc, id, hid, dom.elementsWithId_eq_none (hi.resolve_left hs) id⟩

-- The elements below some root that a query accepts, each asked on its own, as they
-- come in the walk below a node.
def acceptedBelow (query : Query) (dom : Dom) (top : Node) (roots : List Node) : List Node :=
  (dom.descendants top).filter fun a => dom.isElement a && roots.any (dom.isDescendantOf a) &&
    (query.accepts dom.toTree a).toOption == some true

theorem mem_acceptedBelow (hdom : dom.Forest) (hne : query.chains ≠ [])
    (hroots : ∀ r ∈ roots, r = top ∨ dom.isDescendantOf r top = true) :
    a ∈ query.acceptedBelow dom top roots ↔ dom.isElement a = true ∧
      (∃ r ∈ roots, dom.toTree.Below a r) ∧ query.holdsAt dom.toTree a = true := by
  have haccepts : ((query.accepts dom.toTree a).toOption == some true) =
      query.holdsAt dom.toTree a := by
    rw [accepts, checked_eq hne]
    cases query.holdsAt dom.toTree a <;> rfl
  rw [acceptedBelow, List.mem_filter, hdom.mem_descendants, haccepts]
  simp only [Bool.and_eq_true_iff, List.any_eq_true, hdom.isDescendantOf_iff_below, and_assoc]
  refine and_iff_right_of_imp ?_
  rintro ⟨-, ⟨r, hr, hb⟩, -⟩
  have hinside : dom.toTree.Inside r top :=
    (hroots r hr).imp_right hdom.isDescendantOf_iff_below.1
  exact hb.of_inside hinside

theorem found_eq_acceptedBelow (hdom : dom.Forest) (query : Query) (hne : query.chains ≠ [])
    (hi : query.seeds? = none ∨ dom.index = none)
    (hroots : ∀ r ∈ roots, r = top ∨ dom.isDescendantOf r top = true) :
    query.found dom.toTree roots = query.acceptedBelow dom top roots := by
  have h := hdom.consistent
  have hinside : ∀ r ∈ roots, dom.toTree.Inside r top := by
    intro r hr
    exact (hroots r hr).imp_right hdom.isDescendantOf_iff_below.1
  have hconn : ∀ a ∈ roots, ∀ b ∈ roots, dom.toTree.Connected a b := by
    intro a ha b hb
    exact Tree.connected_of_inside (hinside a ha) (hinside b hb)
  rw [found, candidates_of_walk (walks_of_index hne hi)]
  apply h.eq_of_pairwise
  · exact (h.elementsBelow_pairwise hconn).filter _
  · exact (hdom.descendantsWithin_pairwise _ _).filter _
  intro a
  rw [List.mem_filter, h.mem_elementsBelow, h.below_topmost, mem_acceptedBelow hdom hne hroots,
    and_assoc]
  rfl

-- A query that walks finds each element once that it accepts below some root, in
-- document order, and stops where it is asked to.
theorem select_eq_acceptedBelow (hdom : dom.Built) (hne : query.chains ≠ [])
    (hi : query.seeds? = none ∨ dom.index = none)
    (hroots : ∀ r ∈ roots, r = top ∨ dom.isDescendantOf r top = true) :
    query.select dom.toTree roots .all = .ok (query.acceptedBelow dom top roots) ∧
    (query.acceptedBelow dom top roots).Nodup ∧
    query.select dom.toTree roots .first = .ok ((query.acceptedBelow dom top roots).take 1) ∧
    ∀ root count, query.take dom.toTree root count =
      (query.selectAll dom.toTree root).map (List.take count) := by
  have h := hdom.forest.consistent
  have hf := found_eq_acceptedBelow hdom.forest query hne hi hroots
  refine ⟨?_, ?_, ?_, fun root count => ?_⟩
  · rw [select_eq query h, checked_eq hne, hf]
    rfl
  · exact h.nodup_of_pairwise ((hdom.forest.descendantsWithin_pairwise _ _).filter _)
  · rw [select_eq query h, checked_eq hne, hf]
    rfl
  · rw [take_eq query h, selectAll, select_eq query h, checked_eq hne, checked_eq hne]
    rfl

def paragraphs : Query := ofSelectors "p" [⟨[.tag "p"], []⟩] {}

theorem select_eq_acceptedBelow_division :
    division.Built ∧ paragraphs.chains ≠ [] ∧ division.index = none ∧
      (∀ r ∈ [1, 0, 1], r = 0 ∨ division.isDescendantOf r 0 = true) ∧
      paragraphs.select division.toTree [1, 0, 1] .all = .ok [2] ∧
      paragraphs.select division.toTree [1, 0, 1] .first = .ok [2] ∧
      paragraphs.take division.toTree 0 1 =
        (paragraphs.selectAll division.toTree 0).map (List.take 1) := by
  have hroots : ∀ r ∈ [1, 0, 1], r = 0 ∨ division.isDescendantOf r 0 = true := by decide
  have hfound : paragraphs.acceptedBelow division 0 [1, 0, 1] = [2] := by with_unfolding_all rfl
  have hne : paragraphs.chains ≠ [] := by simp [paragraphs, ofSelectors, lowerList]
  obtain ⟨hall, -, hfirst, htake⟩ :=
    select_eq_acceptedBelow built_division hne (.inr rfl) hroots
  rw [hfound] at hall hfirst
  exact ⟨built_division, hne, rfl, hroots, hall, hfirst, htake 0 1⟩

end Query

end CssQuery
