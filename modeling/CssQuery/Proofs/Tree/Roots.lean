import CssQuery.Proofs.Lists
import CssQuery.Proofs.Tree.Preorder
import CssQuery.Query.Select

namespace CssQuery.Tree

variable (tree : Tree)

-- One of the two nodes comes before the other.
def Ordered (a b : Node) : Prop := tree.Before a b ∨ tree.Before b a

variable {tree} {a b : Node} {nodes roots : List Node}

theorem insertLast_perm (a : Node) (nodes : List Node) :
    (tree.insertLast a nodes).Perm (a :: nodes) := by
  induction nodes with
  | nil => exact .refl _
  | cons last earlier ih =>
      simp only [insertLast]
      split
      · exact (ih.cons last).trans (.swap a last earlier)
      · exact .refl _

theorem foldl_insertLast_perm (tree : Tree) (sorted nodes : List Node) :
    (nodes.foldl (fun sorted a => tree.insertLast a sorted) sorted).Perm (nodes ++ sorted) := by
  induction nodes generalizing sorted with
  | nil => exact .refl _
  | cons a nodes ih =>
      refine (ih (tree.insertLast a sorted)).trans ?_
      exact ((insertLast_perm a sorted).append_left nodes).trans List.perm_middle

theorem sort_perm (nodes : List Node) : (tree.sort nodes).Perm nodes := by
  have hp := foldl_insertLast_perm tree [] nodes
  rw [List.append_nil] at hp
  exact (List.reverse_perm _).trans hp

theorem mem_topmost :
    a ∈ tree.topmost roots ↔ a ∈ roots ∧ ∀ b ∈ roots, b ∉ tree.ancestors a := by
  rw [topmost, (sort_perm _).mem_iff, List.mem_filter, List.mem_eraseDups]
  simp only [Bool.not_eq_true', List.any_eq_false, decide_eq_true_eq]
  refine and_congr_right fun _ => ?_
  constructor
  · intro hn b hb hm
    exact hn b hm hb
  · intro hn b hm hb
    exact hn b hb hm

namespace Consistent

variable (h : tree.Consistent)

include h

theorem insertLast_pairwise (hs : nodes.Pairwise fun x y => tree.Before y x)
    (ho : ∀ b ∈ nodes, tree.Ordered a b) :
    (tree.insertLast a nodes).Pairwise fun x y => tree.Before y x := by
  induction nodes with
  | nil => exact List.pairwise_singleton _ a
  | cons last earlier ih =>
      obtain ⟨hlast, hearlier⟩ := List.pairwise_cons.1 hs
      simp only [insertLast]
      split
      · next hlt =>
          have hb := h.order_eq_lt_iff.1 hlt
          have hrest := ih hearlier fun b hm => ho b (.tail _ hm)
          refine List.pairwise_cons.2 ⟨?_, hrest⟩
          intro x hx
          rcases List.mem_cons.1 ((insertLast_perm a earlier).mem_iff.1 hx) with rfl | hx
          · exact hb
          · exact hlast x hx
      · next hn =>
          have hnot : ¬ tree.Before a last := fun hb => hn (h.order_eq_lt_iff.2 hb)
          have hb : tree.Before last a := (ho last (.head _)).resolve_left hnot
          refine List.pairwise_cons.2 ⟨?_, hs⟩
          intro x hx
          rcases List.mem_cons.1 hx with rfl | hx
          · exact hb
          · exact h.before_trans (hlast x hx) hb

theorem foldl_insertLast_pairwise {sorted : List Node}
    (hs : sorted.Pairwise fun x y => tree.Before y x) (hn : nodes.Pairwise tree.Ordered)
    (hsn : ∀ a ∈ nodes, ∀ b ∈ sorted, tree.Ordered a b) :
    (nodes.foldl (fun sorted a => tree.insertLast a sorted) sorted).Pairwise
      fun x y => tree.Before y x := by
  induction nodes generalizing sorted with
  | nil => exact hs
  | cons a nodes ih =>
      obtain ⟨ha, hn⟩ := List.pairwise_cons.1 hn
      apply ih (h.insertLast_pairwise hs (hsn a (.head _))) hn
      intro c hc b hb
      rcases List.mem_cons.1 ((insertLast_perm a sorted).mem_iff.1 hb) with rfl | hb
      · exact (ha c hc).symm
      · exact hsn c (.tail _ hc) b hb

theorem sort_pairwise (hn : nodes.Pairwise tree.Ordered) :
    (tree.sort nodes).Pairwise tree.Before :=
  List.pairwise_reverse.2 (h.foldl_insertLast_pairwise .nil hn (by simp))

theorem pairwise_ordered (hd : nodes.Nodup)
    (hc : ∀ a ∈ nodes, ∀ b ∈ nodes, tree.Connected a b) : nodes.Pairwise tree.Ordered :=
  hd.imp_of_mem fun ha hb hne => (h.before_total (hc _ ha _ hb)).resolve_left hne

theorem sort_pairwise_of_connected (hd : nodes.Nodup)
    (hc : ∀ a ∈ nodes, ∀ b ∈ nodes, tree.Connected a b) :
    (tree.sort nodes).Pairwise tree.Before :=
  h.sort_pairwise (h.pairwise_ordered hd hc)

theorem topmost_pairwise (hc : ∀ a ∈ roots, ∀ b ∈ roots, tree.Connected a b) :
    (tree.topmost roots).Pairwise tree.Before := by
  apply h.sort_pairwise_of_connected ((nodup_eraseDups roots).filter _)
  intro a ha b hb
  have har : a ∈ roots := List.mem_eraseDups.1 (List.mem_filter.1 ha).1
  have hbr : b ∈ roots := List.mem_eraseDups.1 (List.mem_filter.1 hb).1
  exact hc a har b hbr

theorem belows : WellFounded fun b a => tree.Below a b := by
  have hw := h.parents.wellFounded.transGen
  refine Subrelation.wf (fun {b a} hb => ?_) hw
  exact Relation.transGen_swap.1 hb

-- Above each root, or at it, is one that no other root lies above.
theorem exists_topmost (ha : a ∈ roots) : ∃ b ∈ tree.topmost roots, tree.Inside a b := by
  induction a using h.belows.induction with
  | _ a ih =>
      by_cases hb : ∃ b ∈ roots, tree.Below a b
      · obtain ⟨b, hm, hb⟩ := hb
        obtain ⟨c, hc, hbc⟩ := ih b hb hm
        exact ⟨c, hc, (hb.of_inside hbc).inside⟩
      · have htop : ∀ b ∈ roots, b ∉ tree.ancestors a := by
          intro b hm hab
          exact hb ⟨b, hm, h.mem_ancestors.1 hab⟩
        exact ⟨a, mem_topmost.2 ⟨ha, htop⟩, .refl⟩

-- What lies below some root lies below a topmost one.
theorem below_topmost :
    (∃ b ∈ tree.topmost roots, tree.Below a b) ↔ ∃ b ∈ roots, tree.Below a b := by
  constructor
  · rintro ⟨b, hm, hb⟩
    exact ⟨b, (mem_topmost.1 hm).1, hb⟩
  · rintro ⟨b, hm, hb⟩
    obtain ⟨c, hc, hbc⟩ := h.exists_topmost hm
    exact ⟨c, hc, hb.of_inside hbc⟩

theorem mem_elementsBelow :
    a ∈ tree.elementsBelow roots ↔ tree.isElement a = true ∧ ∃ b ∈ roots, tree.Below a b := by
  simp only [elementsBelow, List.mem_flatMap, List.mem_filter, h.mem_descendants]
  constructor
  · rintro ⟨b, hm, hb, he⟩
    exact ⟨he, b, hm, hb⟩
  · rintro ⟨he, b, hm, hb⟩
    exact ⟨b, hm, hb, he⟩

-- Topmost roots lie side by side, so what is below one comes out before what is below
-- the next.
theorem elementsBelow_pairwise (hc : ∀ a ∈ roots, ∀ b ∈ roots, tree.Connected a b) :
    (tree.elementsBelow (tree.topmost roots)).Pairwise tree.Before := by
  refine List.pairwise_flatMap.2 ⟨fun a _ => (h.descendants_pairwise a).filter _, ?_⟩
  refine (h.topmost_pairwise hc).imp_of_mem ?_
  intro u v hu hv huv a ha b hb
  have hau := h.mem_descendants.1 (List.mem_filter.1 ha).1
  have hbv := h.mem_descendants.1 (List.mem_filter.1 hb).1
  rcases huv with hvu | ⟨x, y, he, hux, hvy⟩
  · have hur : u ∈ roots := (mem_topmost.1 hu).1
    exact absurd (h.mem_ancestors.2 hvu) ((mem_topmost.1 hv).2 u hur)
  · exact .of_earlier he (hau.of_inside hux).inside (hbv.of_inside hvy).inside

end Consistent

-- Trees that have the same links and the same elements.
structure SameShape (tree other : Tree) : Prop where
  size : other.size = tree.size
  isElement : other.isElement = tree.isElement
  parent : other.parent = tree.parent
  firstChild : other.firstChild = tree.firstChild
  nextSibling : other.nextSibling = tree.nextSibling
  prevSibling : other.prevSibling = tree.prevSibling

namespace SameShape

variable {other : Tree} (h : tree.SameShape other)

include h

theorem ancestors : other.ancestors = tree.ancestors := by
  funext a
  rw [Tree.ancestors, Tree.ancestors, h.parent, h.size]

theorem orderOfSiblings : other.orderOfSiblings = tree.orderOfSiblings := by
  have hfollowing : other.following = tree.following := by
    funext a
    rw [following, following, h.nextSibling, h.size]
  have hpreceding : other.preceding = tree.preceding := by
    funext a
    rw [preceding, preceding, h.prevSibling, h.size]
  funext a b
  rw [Tree.orderOfSiblings, Tree.orderOfSiblings, hfollowing, hpreceding]

theorem pathOrder : other.pathOrder = tree.pathOrder := by
  funext xs ys
  induction xs generalizing ys with
  | nil => rfl
  | cons x xs ih =>
      cases ys with
      | nil => rfl
      | cons y ys => rw [Tree.pathOrder, Tree.pathOrder, ih, h.orderOfSiblings]

-- The order of nodes is told by their links.
theorem sort : other.sort = tree.sort := by
  have horder : other.order = tree.order := by
    funext a b
    simp only [order, lineage, h.ancestors, h.pathOrder]
  have hinsert : other.insertLast = tree.insertLast := by
    funext a nodes
    induction nodes with
    | nil => rfl
    | cons last earlier ih => rw [insertLast, insertLast, ih, horder]
  funext nodes
  rw [Tree.sort, Tree.sort, hinsert]

theorem topmost : other.topmost = tree.topmost := by
  funext roots
  rw [Tree.topmost, Tree.topmost, h.sort, h.ancestors]

theorem elementsBelow : other.elementsBelow = tree.elementsBelow := by
  have hstep : other.preorderStep = tree.preorderStep := by
    funext root a
    simp only [preorderStep, afterSubtree, h.ancestors, h.firstChild, h.nextSibling]
  funext roots
  simp only [Tree.elementsBelow, descendants, hstep, h.firstChild, h.isElement, h.size]

theorem lookup? (hids : other.elementsWithId = tree.elementsWithId) :
    other.lookup? = tree.lookup? := by
  funext roots ids
  simp only [Tree.lookup?, hids, h.sort, h.ancestors]

end SameShape

end CssQuery.Tree
