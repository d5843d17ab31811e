import CssQuery.Proofs.Dom.Load
import CssQuery.Proofs.Dom.Links
import CssQuery.Proofs.Tree.Roots
import Mathlib.Order.WellFoundedSet

namespace CssQuery

namespace Tree

variable (tree : Tree)

-- Siblings from one of them on in pre-order: the node, then what is below it from its
-- first child on, then the same from the next sibling on.
inductive Enumerates : Option Node → List Node → Prop
  | none : Enumerates none []
  | some {a : Node} {below after : List Node}
      (hbelow : Enumerates (tree.firstChild a) below)
      (hafter : Enumerates (tree.nextSibling a) after) : Enumerates (some a) (a :: (below ++ after))

-- The first of the topmost nodes of the tree that a node is part of.
structure Heads (first a : Node) : Prop where
  connected : tree.Connected a first
  parent_eq : tree.parent first = none
  prevSibling_eq : tree.prevSibling first = none

-- Nodes that document order puts in one order, as it takes to sort them.
structure Linear (nodes : List Node) : Prop where
  eq_iff : ∀ a ∈ nodes, ∀ b ∈ nodes, tree.order a b = .eq ↔ a = b
  swap : ∀ a ∈ nodes, ∀ b ∈ nodes, tree.order b a = (tree.order a b).swap
  trans : ∀ a ∈ nodes, ∀ b ∈ nodes, ∀ c ∈ nodes,
    tree.order a b ≠ .gt → tree.order b c ≠ .gt → tree.order a c ≠ .gt
  above : ∀ a ∈ nodes, ∀ b ∈ nodes, tree.Below b a → tree.order a b = .lt
  sort_eq : ∀ given : List Node, given.Nodup → (∀ a ∈ given, a ∈ nodes) →
    tree.sort given = nodes.filter (· ∈ given)

-- A node in the subtree of a sibling from a given one on.
def Onward (start : Option Node) (z : Node) : Prop :=
  ∃ a, start = some a ∧ ∃ s, (s = a ∨ tree.Earlier a s) ∧ tree.Inside z s

variable {tree} {a b first z : Node} {start : Option Node} {nodes below after : List Node}

namespace Consistent

variable (h : tree.Consistent)

include h

theorem before_of_step (hs : tree.firstChild a = some b ∨ tree.nextSibling a = some b) :
    tree.Before a b := by
  rcases hs with hc | hn
  · exact .of_below (h.below_of_firstChild hc)
  · exact .of_earlier (.of_step hn) .refl .refl

-- The steps lead on in document order, which is strict, and there are finitely many linked
-- nodes for them to lead to.
theorem steps_wellFounded :
    WellFounded fun b a => tree.firstChild a = some b ∨ tree.nextSibling a = some b := by
  obtain ⟨linked, -, hlinked⟩ := h.within
  have hstrict : IsStrictOrder Node fun b a => tree.Before a b :=
    { irrefl := h.not_before_self, trans := fun _ _ _ hba hcb => h.before_trans hcb hba }
  have hwf : (linked : Set Node).WellFoundedOn fun b a => tree.Before a b := linked.wellFoundedOn
  refine Subrelation.wf ?_ (Set.wellFoundedOn_iff.1 hwf)
  intro b a hs
  refine ⟨h.before_of_step hs, ?_⟩
  rcases hs with hc | hn
  · exact hlinked b a (.inl ((h.firstChild_iff a b).1 hc).1)
  · exact (hlinked a b (.inr hn)).symm

theorem exists_enumerates (start : Option Node) : ∃ nodes, tree.Enumerates start nodes := by
  cases start with
  | none => exact ⟨[], .none⟩
  | some a =>
      induction a using h.steps_wellFounded.induction with
      | _ a ih =>
          have hstep : ∀ next : Option Node, (∀ b, next = some b →
              tree.firstChild a = some b ∨ tree.nextSibling a = some b) →
                ∃ nodes, tree.Enumerates next nodes := by
            intro next hnext
            cases next with
            | none => exact ⟨[], .none⟩
            | some b => exact ih b (hnext b rfl)
          obtain ⟨below, hbelow⟩ := hstep (tree.firstChild a) fun _ => .inl
          obtain ⟨after, hafter⟩ := hstep (tree.nextSibling a) fun _ => .inr
          exact ⟨_, .some hbelow hafter⟩

-- What lies below a node lies in the subtrees of its children, from the first one on.
theorem onward_firstChild : tree.Onward (tree.firstChild a) z ↔ tree.Below z a := by
  constructor
  · rintro ⟨c, hc, s, hs, hz⟩
    have hca : tree.Below c a := h.below_of_firstChild hc
    rcases hs with rfl | hs
    · exact hz.below hca
    · exact hz.below ((h.below_sibling hs).1 hca)
  · intro hz
    obtain ⟨s, hs, hzs⟩ := hz.exists_child
    obtain ⟨c, hc, hsc⟩ := h.exists_first hs
    exact ⟨c, hc, s, hsc, hzs⟩

omit h in
theorem onward_nextSibling :
    tree.Onward (tree.nextSibling a) z ↔ ∃ s, tree.Earlier a s ∧ tree.Inside z s := by
  constructor
  · rintro ⟨b, hn, s, hs, hz⟩
    exact ⟨s, met_iff.2 ⟨b, hn, hs⟩, hz⟩
  · rintro ⟨s, has, hz⟩
    obtain ⟨b, hn, hs⟩ := met_iff.1 has
    exact ⟨b, hn, s, hs, hz⟩

theorem onward_some : tree.Onward (some a) z ↔
    z = a ∨ tree.Onward (tree.firstChild a) z ∨ tree.Onward (tree.nextSibling a) z := by
  rw [h.onward_firstChild, onward_nextSibling]
  constructor
  · rintro ⟨b, he, s, hs, hz⟩
    obtain rfl := Option.some.inj he
    rcases hs with rfl | has
    · exact hz.imp_right .inl
    · exact .inr (.inr ⟨s, has, hz⟩)
  · rintro (rfl | hz | ⟨s, has, hz⟩)
    · exact ⟨z, rfl, z, .inl rfl, .refl⟩
    · exact ⟨a, rfl, a, .inl rfl, hz.inside⟩
    · exact ⟨a, rfl, s, .inr has, hz⟩

theorem mem_enumeration (he : tree.Enumerates start nodes) : z ∈ nodes ↔ tree.Onward start z := by
  induction he with
  | none => simp [Onward]
  | some _ _ ihbelow ihafter =>
      rw [List.mem_cons, List.mem_append, ihbelow, ihafter, h.onward_some]

theorem enumeration_pairwise (he : tree.Enumerates start nodes) : nodes.Pairwise tree.Before := by
  induction he with
  | none => exact .nil
  | @some a below after hbelow hafter ihbelow ihafter =>
      have hb : ∀ z ∈ below, tree.Below z a := fun z hz =>
        h.onward_firstChild.1 ((h.mem_enumeration hbelow).1 hz)
      have ha : ∀ z ∈ after, ∃ s, tree.Earlier a s ∧ tree.Inside z s := fun z hz =>
        onward_nextSibling.1 ((h.mem_enumeration hafter).1 hz)
      refine List.pairwise_cons.2 ⟨?_, List.pairwise_append.2 ⟨ihbelow, ihafter, ?_⟩⟩
      · intro z hz
        rcases List.mem_append.1 hz with hz | hz
        · exact .of_below (hb z hz)
        · obtain ⟨s, has, hzs⟩ := ha z hz
          exact .of_earlier has .refl hzs
      · intro y hy z hz
        obtain ⟨s, has, hzs⟩ := ha z hz
        exact .of_earlier has (hb y hy).inside hzs

theorem exists_heads (a : Node) : ∃ first, tree.Heads first a := by
  obtain ⟨top, hi, ht⟩ := h.exists_top a
  obtain ⟨first, hl, hp⟩ := h.exists_leads top
  rcases hl with rfl | he
  · exact ⟨top, hi.connected, ht, hp⟩
  · exact ⟨first, hi.connected.trans _ _ _ (he.connected.symm _ _), (h.parent_eq he).trans ht, hp⟩

-- From its first node on, a tree is enumerated as a whole.
theorem onward_iff_connected (hf : tree.Heads first a) :
    tree.Onward (some first) z ↔ tree.Connected a z := by
  constructor
  · rintro ⟨b, he, s, hs, hz⟩
    obtain rfl := Option.some.inj he
    have hfs : tree.Connected first s := by
      rcases hs with rfl | hs
      · exact .refl s
      · exact hs.connected
    exact hf.connected.trans _ _ _ (hfs.trans _ _ _ (hz.connected.symm _ _))
  · intro hz
    have hfz : tree.Connected first z := (hf.connected.symm _ _).trans _ _ _ hz
    obtain ⟨x, y, hx, hy, hxp, -, hxy⟩ := h.exists_tops hfz
    obtain rfl : first = x := top_unique .refl hx hf.parent_eq hxp
    refine ⟨first, rfl, y, ?_, hy⟩
    rcases hxy with rfl | he | he
    · exact .inl rfl
    · exact .inr he
    · exact absurd hf.prevSibling_eq (Met.ne_none ((met_reverse h.next_iff).1 he))

-- Where all nodes of a list are in one tree and in document order, two compare as their
-- places in the list.
theorem order_eq_compare (hn : nodes.Pairwise tree.Before)
    (hc : ∀ b ∈ nodes, ∀ c ∈ nodes, tree.Connected b c) (ha : a ∈ nodes) (hb : b ∈ nodes) :
    tree.order a b = compare (nodes.idxOf a) (nodes.idxOf b) := by
  have hd := h.nodup_of_pairwise hn
  rcases h.before_total (hc a ha b hb) with rfl | hab | hba
  · rw [order, if_pos rfl, compare_eq_iff_eq.2 rfl]
  · have hlt := idxOf_lt_of_pair hd (h.pair_of_before hn ha hb hab)
    rw [(h.order_of_before hab).1, Nat.compare_eq_lt.2 hlt]
  · have hlt := idxOf_lt_of_pair hd (h.pair_of_before hn hb ha hba)
    rw [(h.order_of_before hba).2, Nat.compare_eq_gt.2 hlt]

theorem linear (hn : nodes.Pairwise tree.Before)
    (hc : ∀ b ∈ nodes, ∀ c ∈ nodes, tree.Connected b c) : tree.Linear nodes where
  eq_iff a ha b hb := by
    rw [h.order_eq_compare hn hc ha hb, compare_eq_iff_eq, List.idxOf_inj ha]
  swap a ha b hb := by
    rw [h.order_eq_compare hn hc ha hb, h.order_eq_compare hn hc hb ha, Nat.compare_swap]
  trans a ha b hb c hm := by
    rw [h.order_eq_compare hn hc ha hb, h.order_eq_compare hn hc hb hm,
      h.order_eq_compare hn hc ha hm]
    simp only [Nat.compare_ne_gt]
    exact Nat.le_trans
  above a _ b _ hb := (h.order_of_before (.of_below hb)).1
  sort_eq given hd hg := by
    have hsorted := h.sort_pairwise_of_connected hd fun a ha b hb => hc a (hg a ha) b (hg b hb)
    apply h.eq_of_pairwise hsorted (hn.filter _)
    intro a
    rw [(sort_perm given).mem_iff, List.mem_filter, decide_eq_true_iff]
    exact (and_iff_right_of_imp (hg a)).symm

end Consistent

-- Document order on a tree is the order of its nodes in pre-order. It is linear, so sorting
-- by it puts nodes as they stand there.
theorem order_eq_compare_idxOf (h : tree.Consistent) (a : Node) :
    (∃ first nodes, tree.Heads first a ∧ tree.Enumerates (some first) nodes) ∧
    ∀ first nodes, tree.Heads first a → tree.Enumerates (some first) nodes →
      nodes.Nodup ∧ (∀ b, b ∈ nodes ↔ tree.Connected a b) ∧
      (∀ b ∈ nodes, ∀ c ∈ nodes,
        tree.order b c = compare (nodes.idxOf b) (nodes.idxOf c)) ∧
      tree.Linear nodes := by
  constructor
  · obtain ⟨first, hf⟩ := h.exists_heads a
    obtain ⟨nodes, he⟩ := h.exists_enumerates (some first)
    exact ⟨first, nodes, hf, he⟩
  · intro first nodes hf he
    have hn := h.enumeration_pairwise he
    have hm : ∀ b, b ∈ nodes ↔ tree.Connected a b := fun b =>
      (h.mem_enumeration he).trans (h.onward_iff_connected hf)
    have hc : ∀ b ∈ nodes, ∀ c ∈ nodes, tree.Connected b c := fun b hb c hc =>
      (((hm b).1 hb).symm _ _).trans _ _ _ ((hm c).1 hc)
    exact ⟨h.nodup_of_pairwise hn, hm, fun b hb c => h.order_eq_compare hn hc hb,
      h.linear hn hc⟩

end Tree

namespace Dom

-- The trees of a document that is left out itself: what was at its top has no parent.
def topTrees (dom : Dom) : Tree :=
  { dom.toTree with
    parent := fun node => (dom.parent node).filter (· != root)
    firstChild := fun node => if node = root then none else dom.firstChild node }

theorem Forest.consistent_topTrees {dom : Dom} (h : Forest dom) : dom.topTrees.Consistent where
  next_iff := h.consistent.next_iff
  parent_next a b hn := congrArg (Option.filter (· != root)) (h.consistent.parent_next a b hn)
  firstChild_iff p c := by
    simp only [topTrees, toTree, Option.filter_eq_some_iff, bne_iff_ne]
    by_cases hp : p = root
    · simp [hp]
    · simp [hp, h.firstChild_iff]
  not_below_self a hb := by
    refine h.not_below_self a (hb.mono fun x y hs => .of_step ?_)
    exact (Option.filter_eq_some_iff.1 hs).1
  not_earlier_self := h.consistent.not_earlier_self
  within := by
    obtain ⟨nodes, hcard, hnodes⟩ := h.consistent.within
    refine ⟨nodes, hcard, fun a b hs => hnodes a b ?_⟩
    exact hs.imp_left fun hp => (Option.filter_eq_some_iff.1 hp).1

-- A list of two items, the second of which holds a text, and a paragraph after it.
def outline : Dom :=
  ((((((Dom.new.adopt root (.element "ul" .empty)).2.adopt 1 (.element "li" .empty)).2).adopt 1
    (.element "li" .empty)).2.adopt 3 (.text "a")).2.adopt root (.element "p" .empty)).2

theorem built_outline : outline.Built :=
  ((((Built.new.adopt (by decide) _).adopt (by decide) _).adopt (by decide) _).adopt
    (by decide) _).adopt (by decide) _

end Dom

namespace Tree

open Dom (outline)

-- The list and the paragraph are siblings without a parent, and the text is deep in the list.
theorem order_eq_compare_idxOf_outline : outline.topTrees.Consistent ∧
    outline.topTrees.Heads 1 4 ∧ outline.topTrees.Enumerates (some 1) [1, 2, 3, 4, 5] ∧
    outline.topTrees.Connected 4 5 ∧ outline.topTrees.order 4 5 = .lt ∧
    outline.topTrees.Linear [1, 2, 3, 4, 5] ∧
    outline.topTrees.sort [5, 4, 1] = [1, 4, 5] := by
  have h := Dom.built_outline.forest.consistent_topTrees
  have hinside : outline.topTrees.Inside 4 1 :=
    .inr (.trans (.of_parent (p := 3) rfl) (.of_parent rfl))
  have hf : outline.topTrees.Heads 1 4 := ⟨hinside.connected, rfl, rfl⟩
  have htext : outline.topTrees.Enumerates (some 4) [4] := @Enumerates.some _ 4 [] [] .none .none
  have hitems : outline.topTrees.Enumerates (some 2) [2, 3, 4] :=
    @Enumerates.some _ 2 [] [3, 4] .none (@Enumerates.some _ 3 [4] [] htext .none)
  have he : outline.topTrees.Enumerates (some 1) [1, 2, 3, 4, 5] :=
    @Enumerates.some _ 1 [2, 3, 4] [5] hitems (@Enumerates.some _ 5 [] [] .none .none)
  obtain ⟨-, hm, horder, hlinear⟩ := (order_eq_compare_idxOf h 4).2 1 _ hf he
  refine ⟨h, hf, he, (hm 5).1 (by simp), ?_, hlinear, ?_⟩
  · exact horder 4 (by simp) 5 (by simp)
  · exact hlinear.sort_eq [5, 4, 1] (by decide) (by simp)

end Tree

end CssQuery
