import CssQuery.Proofs.Dom.Forest
import CssQuery.Proofs.Lists
import CssQuery.Proofs.Tree.Preorder
import CssQuery.Proofs.Tree.Siblings
import Mathlib.Data.List.Chain

namespace CssQuery.Dom.Forest

variable {dom : Dom} {a b c node parent : Node} (h : Forest dom)

include h

theorem exists_split (hp : dom.parent node = some parent) :
    ∃ before after, dom.children parent = before ++ node :: after ∧
      dom.prevSibling node = before.getLast? ∧ dom.nextSibling node = after.head? := by
  obtain ⟨before, after, hs⟩ := List.append_of_mem ((h.parent_iff node parent).1 hp)
  exact ⟨before, after, hs, h.siblings parent before node after hs⟩

-- Neighbours are linked, and none but neighbours.
theorem nextSibling_iff :
    dom.nextSibling a = some b ↔ ∃ p before after, dom.children p = before ++ a :: b :: after := by
  constructor
  · intro hn
    obtain ⟨p, hp⟩ : ∃ p, dom.parent a = some p := by
      refine Option.ne_none_iff_exists'.1 fun hp => ?_
      simp [(h.alone a hp).2] at hn
    obtain ⟨before, after, hs, -, hnext⟩ := h.exists_split hp
    obtain ⟨rest, rfl⟩ := List.head?_eq_some_iff.1 (hnext.symm.trans hn)
    exact ⟨p, before, rest, hs⟩
  · rintro ⟨p, before, after, hs⟩
    exact (h.siblings p before a (b :: after) hs).2

theorem prevSibling_iff :
    dom.prevSibling b = some a ↔ ∃ p before after, dom.children p = before ++ a :: b :: after := by
  constructor
  · intro hn
    obtain ⟨p, hp⟩ : ∃ p, dom.parent b = some p := by
      refine Option.ne_none_iff_exists'.1 fun hp => ?_
      simp [(h.alone b hp).1] at hn
    obtain ⟨before, after, hs, hprev, -⟩ := h.exists_split hp
    obtain ⟨rest, rfl⟩ := List.getLast?_eq_some_iff.1 (hprev.symm.trans hn)
    exact ⟨p, rest, after, by rw [hs, List.append_assoc]; rfl⟩
  · rintro ⟨p, before, after, hs⟩
    rw [(h.siblings p (before ++ [a]) b after (by simp [hs])).1]
    simp

theorem parent_next (hn : dom.nextSibling a = some b) : dom.parent a = dom.parent b := by
  obtain ⟨p, before, after, hs⟩ := h.nextSibling_iff.1 hn
  rw [(h.parent_iff a p).2 (by simp [hs]), (h.parent_iff b p).2 (by simp [hs])]

theorem children_pairwise (p : Node) : (dom.children p).Pairwise (Met dom.nextSibling) := by
  have : Trans (Met dom.nextSibling) (Met dom.nextSibling) (Met dom.nextSibling) := ⟨Met.trans⟩
  have hchain : (dom.children p).IsChain (Met dom.nextSibling) := by
    rw [List.isChain_iff_forall_rel_of_append_cons_cons]
    intro a b before after hs
    exact .of_step (h.nextSibling_iff.2 ⟨p, before, after, hs⟩)
  exact hchain.pairwise

-- The siblings met along the links are those further on in the list of children.
theorem met_nextSibling_iff :
    Met dom.nextSibling a b ↔ ∃ p, [a, b].Sublist (dom.children p) := by
  constructor
  · intro hm
    induction hm with
    | single hn =>
        obtain ⟨p, before, after, hs⟩ := h.nextSibling_iff.1 hn
        exact ⟨p, pair_sublist_iff.2 ⟨before ++ [a], after, by simp [hs], by simp⟩⟩
    | @tail b c _ hn ih =>
        obtain ⟨p, hab⟩ := ih
        obtain ⟨front, rest, hp, ha⟩ := pair_sublist_iff.1 hab
        obtain ⟨q, before, after, hq⟩ := h.nextSibling_iff.1 hn
        -- a child stands in one place of one list only
        have hbp := (h.parent_iff b p).2 (by simp [hp])
        have hbq := (h.parent_iff b q).2 (by simp [hq])
        obtain rfl : p = q := Option.some.inj (hbp.symm.trans hbq)
        have hd := h.children_nodup p
        rw [hp, List.nodup_append] at hd
        have hfront : b ∉ front := fun hm => hd.2.2 b hm b (.head _) rfl
        have hrest := (List.nodup_cons.1 hd.2.1).1
        have hsplit := hp.symm.trans hq
        obtain ⟨rfl, -, rfl⟩ := (List.append_cons_inj_of_notMem hfront hrest).1 hsplit
        exact ⟨p, pair_sublist_iff.2 ⟨front ++ [b], after, by simp [hq], by simp [ha]⟩⟩
  · rintro ⟨p, hs⟩
    exact List.pairwise_iff_forall_sublist.1 (h.children_pairwise p) hs

theorem firstChild_iff :
    dom.firstChild parent = some c ↔ dom.parent c = some parent ∧ dom.prevSibling c = none := by
  constructor
  · intro hf
    obtain ⟨rest, hs⟩ := List.head?_eq_some_iff.1 hf
    exact ⟨(h.parent_iff c parent).2 (by simp [hs]), (h.siblings parent [] c rest hs).1⟩
  · rintro ⟨hp, hprev⟩
    obtain ⟨before, after, hs, hb, -⟩ := h.exists_split hp
    rw [hprev, eq_comm, List.getLast?_eq_none_iff] at hb
    rw [firstChild, hs, hb]
    rfl

theorem consistent : dom.toTree.Consistent where
  next_iff a b := h.nextSibling_iff.trans h.prevSibling_iff.symm
  parent_next _ _ hn := h.parent_next hn
  firstChild_iff _ _ := h.firstChild_iff
  not_below_self := h.not_below_self
  not_earlier_self a he := by
    obtain ⟨p, hs⟩ := h.met_nextSibling_iff.1 he
    exact List.nodup_iff_sublist.1 (h.children_nodup p) a hs
  within := by
    refine ⟨Finset.range dom.size, by simp [toTree], ?_⟩
    intro a b hs
    have hin : ∀ {x p}, x ∈ dom.children p → x ∈ Finset.range dom.size :=
      fun hm => Finset.mem_range.2 (h.lt_size _ _ hm)
    rcases hs with hp | hn
    · have hm := (h.parent_iff a b).1 hp
      exact ⟨hin hm, Finset.mem_range.2 (lt_size_of_mem dom hm)⟩
    · obtain ⟨p, before, after, hs⟩ := h.nextSibling_iff.1 hn
      exact ⟨hin (p := p) (by simp [hs]), hin (p := p) (by simp [hs])⟩

theorem earlier_iff : dom.toTree.Earlier a b ↔ ∃ p, [a, b].Sublist (dom.children p) :=
  h.met_nextSibling_iff

theorem isDescendantOf_iff_below :
    dom.isDescendantOf a b = true ↔ dom.toTree.Below a b :=
  h.isDescendantOf_iff

theorem ancestors_length_lt (hb : dom.toTree.Below a b) :
    (dom.ancestors b).length < (dom.ancestors a).length := by
  obtain ⟨x, rest, hl⟩ := h.consistent.lineage_of_below hb
  have hlen := congrArg List.length hl
  simp only [Tree.lineage, List.length_reverse, List.length_cons, List.length_append] at hlen
  change (dom.ancestors a).length + 1 = (dom.ancestors b).length + 1 + (rest.length + 1) at hlen
  omega

-- Going down the lists of children reaches what lies below, and nothing else.
theorem mem_descendantsWithin {depth : Nat} :
    a ∈ dom.descendantsWithin depth parent ↔
      dom.toTree.Below a parent ∧
        (dom.ancestors a).length ≤ (dom.ancestors parent).length + depth := by
  induction depth generalizing parent with
  | zero =>
      simp only [descendantsWithin, List.not_mem_nil, false_iff]
      rintro ⟨hb, hl⟩
      have hlt := h.ancestors_length_lt hb
      omega
  | succ depth ih =>
      simp only [descendantsWithin, List.mem_flatMap, List.mem_cons, ih]
      have hlen : ∀ c ∈ dom.children parent,
          (dom.ancestors c).length = (dom.ancestors parent).length + 1 := by
        intro c hc
        have hp := (h.parent_iff c parent).2 hc
        exact congrArg List.length (h.consistent.ancestors_eq_cons hp)
      constructor
      · rintro ⟨c, hc, ha⟩
        have hcp : dom.toTree.Below c parent := .of_parent ((h.parent_iff c parent).2 hc)
        have hl := hlen c hc
        rcases ha with rfl | ⟨hac, ha⟩
        · exact ⟨hcp, by omega⟩
        · exact ⟨hac.trans hcp, by omega⟩
      · rintro ⟨hb, hl⟩
        obtain ⟨c, hc, hac⟩ := hb.exists_child
        have hm := (h.parent_iff c parent).1 hc
        have hlc := hlen c hm
        have hdepth : (dom.ancestors a).length ≤ (dom.ancestors c).length + depth := by omega
        exact ⟨c, hm, hac.imp_right fun hac => ⟨hac, hdepth⟩⟩

theorem mem_descendants : a ∈ dom.descendants parent ↔ dom.toTree.Below a parent := by
  rw [descendants, h.mem_descendantsWithin]
  have hl : (dom.ancestors a).length ≤ dom.size := length_walk_le
  exact and_iff_left (by omega)

theorem descendantsWithin_pairwise (depth : Nat) (parent : Node) :
    (dom.descendantsWithin depth parent).Pairwise dom.toTree.Before := by
  induction depth generalizing parent with
  | zero => exact .nil
  | succ depth ih =>
      have hin : ∀ {x c}, x ∈ c :: dom.descendantsWithin depth c → dom.toTree.Inside x c := by
        intro x c hx
        exact (List.mem_cons.1 hx).imp_right fun hx => (h.mem_descendantsWithin.1 hx).1
      refine List.pairwise_flatMap.2 ⟨?_, ?_⟩
      · intro c _
        refine List.pairwise_cons.2 ⟨?_, ih c⟩
        intro x hx
        exact .of_below (h.mem_descendantsWithin.1 hx).1
      · refine (h.children_pairwise parent).imp ?_
        intro c d he x hx y hy
        exact .of_earlier he (hin hx) (hin hy)

theorem descendants_pairwise (parent : Node) :
    (dom.descendants parent).Pairwise dom.toTree.Before :=
  h.descendantsWithin_pairwise dom.size parent

-- The walk along links and the way down the lists of children come to the same.
theorem descendants_eq (parent : Node) :
    dom.toTree.descendants parent = dom.descendants parent := by
  apply h.consistent.eq_of_pairwise (h.consistent.descendants_pairwise parent)
    (h.descendants_pairwise parent)
  intro a
  rw [h.consistent.mem_descendants, h.mem_descendants]

-- The siblings met along the links are the children before and after a child.
theorem following_of_children {before after : List Node}
    (hs : dom.children parent = before ++ a :: after) : dom.toTree.following a = after := by
  induction after generalizing before a with
  | nil => exact walk_eq_nil (h.siblings parent before a [] hs).2
  | cons b rest ih =>
      have hn : dom.nextSibling a = some b := (h.siblings parent before a (b :: rest) hs).2
      have hrest : dom.children parent = (before ++ [a]) ++ b :: rest := by simp [hs]
      rw [h.consistent.following_eq_cons hn, ih hrest]

theorem preceding_of_children {before after : List Node}
    (hs : dom.children parent = before ++ a :: after) :
    dom.toTree.preceding a = before.reverse := by
  induction before using List.reverseRecOn generalizing a after with
  | nil => exact walk_eq_nil (h.siblings parent [] a after hs).1
  | append_singleton front b ih =>
      have hp : dom.prevSibling a = some b := by
        rw [(h.siblings parent (front ++ [b]) a after hs).1, List.getLast?_concat]
      have hfront : dom.children parent = front ++ b :: a :: after := by simp [hs]
      rw [h.consistent.preceding_eq_cons hp, ih hfront, List.reverse_concat]

theorem children_eq_cons (hf : dom.firstChild parent = some c) :
    dom.children parent = c :: dom.toTree.following c := by
  obtain ⟨rest, hs⟩ := List.head?_eq_some_iff.1 hf
  have hsplit : dom.children parent = [] ++ c :: rest := hs
  rw [h.following_of_children hsplit, hs]

end CssQuery.Dom.Forest
