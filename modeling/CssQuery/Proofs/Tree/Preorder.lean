import CssQuery.Proofs.Lists
import CssQuery.Proofs.Tree.Order

namespace CssQuery.Tree

variable (tree : Tree)

-- The first node below root that comes after a given one.
def Follows (root a b : Node) : Prop :=
  tree.Below b root ∧ tree.Before a b ∧
    ∀ z, tree.Below z root → tree.Before a z → z = b ∨ tree.Before b z

-- Whether a step leads to the node that follows, if there is one below root.
def LeadsOn (root a : Node) : Option Node → Prop
  | some b => tree.Follows root a b
  | none => ∀ z, tree.Below z root → ¬ tree.Before a z

variable {tree} {a b c p root w x y z : Node}

theorem afterSubtree_self : tree.afterSubtree root root = none := by
  simp [afterSubtree]

theorem afterSubtree_next (hne : a ≠ root) (hn : tree.nextSibling a = some b) :
    tree.afterSubtree root a = some b := by
  simp [afterSubtree, hne, hn]

-- A node inside another one comes before the nodes outside only by way of siblings.
theorem Consistent.before_outside (h : tree.Consistent) (hb : tree.Before a z)
    (ha : tree.Inside a w) (hz : ¬ tree.Inside z w) :
    ∃ x y, tree.Earlier x y ∧ tree.Inside w x ∧ tree.Inside z y := by
  rcases hb with hb | ⟨x, y, he, hx, hy⟩
  · exact absurd (hb.of_inside ha).inside hz
  · rcases ha.total hx with hi | hxw
    · exact ⟨x, y, he, hi, hy⟩
    · exact absurd (hy.below ((h.below_sibling he).1 hxw)).inside hz

namespace Consistent

variable (h : tree.Consistent)

include h

theorem afterSubtree_parent (hne : a ≠ root) (hn : tree.nextSibling a = none)
    (hp : tree.parent a = some p) : tree.afterSubtree root a = tree.afterSubtree root p := by
  simp [afterSubtree, hne, hn, h.ancestors_eq_cons hp]

-- Where nothing inside a subtree comes after a node, the walk leaves the subtree for
-- the node that follows. The induction climbs from the subtree to those around it.
theorem afterSubtree_leadsOn (hw : tree.Below w root) (ha : tree.Inside a w)
    (hlast : ∀ z, tree.Inside z w → ¬ tree.Before a z) :
    tree.LeadsOn root a (tree.afterSubtree root w) := by
  induction w using h.parents.wellFounded.induction with
  | _ w ih =>
      have hne : w ≠ root := by
        rintro rfl
        exact h.not_below_self w hw
      obtain ⟨p, hp, hi⟩ := below_iff.1 hw
      have hout : ∀ z, tree.Before a z →
          ∃ x y, tree.Earlier x y ∧ tree.Inside w x ∧ tree.Inside z y := by
        intro z hb
        have hz : ¬ tree.Inside z w := fun hz => hlast z hz hb
        exact h.before_outside hb ha hz
      cases hn : tree.nextSibling w with
      | some s =>
          rw [afterSubtree_next hne hn]
          have hws : tree.Earlier w s := .of_step hn
          refine ⟨(h.below_sibling hws).1 hw, .of_earlier hws ha .refl, ?_⟩
          intro z _ hb
          obtain ⟨x, y, he, hx, hy⟩ := hout z hb
          rcases hx with rfl | hwx
          · rcases Met.of_cons he hn with rfl | hsy
            · exact hy.imp_right .of_below
            · exact .inr (.of_earlier hsy .refl hy)
          · have hsx := ((h.below_sibling hws).1 hwx).inside
            exact .inr (.of_earlier he hsx hy)
      | none =>
          rw [h.afterSubtree_parent hne hn hp]
          have hup : ∀ z, tree.Before a z →
              ∃ x y, tree.Earlier x y ∧ tree.Inside p x ∧ tree.Inside z y := by
            intro z hb
            obtain ⟨x, y, he, hx, hy⟩ := hout z hb
            rcases hx with rfl | hwx
            · exact absurd hn (Met.ne_none he)
            · obtain ⟨q, hq, hqx⟩ := below_iff.1 hwx
              obtain rfl : p = q := Option.some.inj (hp.symm.trans hq)
              exact ⟨x, y, he, hqx, hy⟩
          have hend : ∀ z, tree.Inside z p → ¬ tree.Before a z := by
            intro z hz hb
            obtain ⟨x, y, he, hx, hy⟩ := hup z hb
            exact h.not_inside_both he (hz.trans hx) hy
          rcases hi with rfl | hpr
          · rw [afterSubtree_self]
            intro z hz
            exact hend z hz.inside
          · have hap : tree.Inside a p := (ha.below (.of_parent hp)).inside
            exact ih p hp hpr hap hend

theorem preorderStep_leadsOn (ha : tree.Below a root) :
    tree.LeadsOn root a (tree.preorderStep root a) := by
  unfold preorderStep
  cases hc : tree.firstChild a with
  | some c =>
      have hca := h.below_of_firstChild hc
      refine ⟨hca.trans ha, .of_below hca, ?_⟩
      intro z _ hb
      rcases hb with hb | ⟨x, y, he, hx, hy⟩
      · obtain ⟨d, hd, hzd⟩ := hb.exists_child
        rcases h.child_of_firstChild hc hd with rfl | he
        · exact hzd.imp_right .of_below
        · exact .inr (.of_earlier he .refl hzd)
      · have hcx := (hca.of_inside hx).inside
        exact .inr (.of_earlier he hcx hy)
  | none =>
      apply h.afterSubtree_leadsOn ha .refl
      intro z hz hb
      rcases hz with rfl | hz
      · exact h.not_before_self z hb
      · exact h.not_below_of_firstChild hc hz

theorem afterSubtree_some (hs : tree.afterSubtree root a = some b) :
    ∃ w, tree.Inside a w ∧ tree.nextSibling w = some b := by
  obtain ⟨w, hw, hn⟩ := List.exists_of_findSome?_eq_some hs
  rcases List.mem_cons.1 (List.takeWhile_subset _ hw) with rfl | hw
  · exact ⟨w, .refl, hn⟩
  · exact ⟨w, (h.mem_ancestors.1 hw).inside, hn⟩

theorem preorderStep_some (hs : tree.preorderStep root a = some b) :
    tree.firstChild a = some b ∨ ∃ w, tree.Inside a w ∧ tree.nextSibling w = some b := by
  unfold preorderStep at hs
  cases hc : tree.firstChild a with
  | some c =>
      rw [hc] at hs
      exact .inl hs
  | none =>
      rw [hc] at hs
      exact .inr (h.afterSubtree_some hs)

theorem before_of_preorderStep (hs : tree.preorderStep root a = some b) : tree.Before a b := by
  rcases h.preorderStep_some hs with hc | ⟨w, hi, hn⟩
  · exact .of_below (h.below_of_firstChild hc)
  · exact .of_earlier (.of_step hn) hi .refl

theorem before_of_met (hm : Met (tree.preorderStep root) a b) : tree.Before a b := by
  induction hm with
  | single hs => exact h.before_of_preorderStep hs
  | tail _ hs ih => exact h.before_trans ih (h.before_of_preorderStep hs)

theorem preorderSteps (root : Node) : Finishes (tree.preorderStep root) tree.size := by
  obtain ⟨nodes, hcard, hnodes⟩ := h.within
  refine ⟨fun a ha => h.not_before_self a (h.before_of_met ha), nodes, hcard, ?_⟩
  intro a b hs
  rcases h.preorderStep_some hs with hc | ⟨w, hi, hn⟩
  · exact (hnodes b a (.inl ((h.firstChild_iff a b).1 hc).1)).symm
  · refine ⟨?_, (hnodes w b (.inr hn)).2⟩
    rcases hi with rfl | hb
    · exact (hnodes a b (.inr hn)).1
    · obtain ⟨p, hp, -⟩ := below_iff.1 hb
      exact (hnodes a p (.inl hp)).1

theorem below_of_met (ha : tree.Below a root) (hm : Met (tree.preorderStep root) a b) :
    tree.Below b root := by
  induction hm with
  | single hs =>
      have hl := h.preorderStep_leadsOn ha
      rw [hs] at hl
      exact hl.1
  | tail _ hs ih =>
      have hl := h.preorderStep_leadsOn ih
      rw [hs] at hl
      exact hl.1

-- The walk from a node misses nothing below root that comes after it.
theorem met_of_before (ha : tree.Below a root) (hz : tree.Below z root)
    (hb : tree.Before a z) : Met (tree.preorderStep root) a z := by
  induction a using (h.preorderSteps root).wellFounded.induction with
  | _ a ih =>
      have hl := h.preorderStep_leadsOn ha
      cases hs : tree.preorderStep root a with
      | none =>
          rw [hs] at hl
          exact absurd hb (hl z hz)
      | some b =>
          rw [hs] at hl
          obtain ⟨hbelow, -, hleast⟩ := hl
          rcases hleast z hz hb with rfl | hbz
          · exact .of_step hs
          · exact (ih b hs hbelow hbz).cons hs

theorem mem_descendants : a ∈ tree.descendants root ↔ tree.Below a root := by
  unfold descendants
  cases hc : tree.firstChild root with
  | none =>
      simp only [List.not_mem_nil, false_iff]
      exact h.not_below_of_firstChild hc
  | some c =>
      have hcr := h.below_of_firstChild hc
      rw [List.mem_cons, (h.preorderSteps root).mem_walk]
      constructor
      · rintro (rfl | hm)
        · exact hcr
        · exact h.below_of_met hcr hm
      · intro ha
        obtain ⟨d, hd, had⟩ := ha.exists_child
        rcases h.child_of_firstChild hc hd with rfl | he
        · rcases had with rfl | hb
          · exact .inl rfl
          · exact .inr (h.met_of_before hcr ha (.of_below hb))
        · have hca : tree.Before c a := .of_earlier he .refl had
          exact .inr (h.met_of_before hcr ha hca)

-- A node comes out before the nodes that it precedes, and so comes out once.
theorem descendants_pairwise (root : Node) : (tree.descendants root).Pairwise tree.Before := by
  unfold descendants
  cases hc : tree.firstChild root with
  | none => exact .nil
  | some c => exact (walk_pairwise _ _ c).imp h.before_of_met

theorem nodup_of_pairwise {nodes : List Node} (hn : nodes.Pairwise tree.Before) :
    nodes.Nodup := by
  refine hn.imp fun {x y} hb he => ?_
  subst he
  exact h.not_before_self x hb

-- A list in document order has a node further up than those that it precedes.
theorem pair_of_before {nodes : List Node} (hn : nodes.Pairwise tree.Before) (ha : a ∈ nodes)
    (hb : b ∈ nodes) (hab : tree.Before a b) : [a, b].Sublist nodes := by
  refine pair_sublist_of_pairwise hn ha hb ?_ fun hba => ?_
  · rintro rfl
    exact h.not_before_self a hab
  · exact h.not_before_self a (h.before_trans hab hba)

-- Nodes in document order are told by which of them there are.
theorem eq_of_pairwise {xs ys : List Node} (hx : xs.Pairwise tree.Before)
    (hy : ys.Pairwise tree.Before) (hm : ∀ a, a ∈ xs ↔ a ∈ ys) : xs = ys := by
  have hxn := h.nodup_of_pairwise hx
  have hyn := h.nodup_of_pairwise hy
  have hp : xs.Perm ys := (List.perm_ext_iff_of_nodup hxn hyn).2 hm
  refine hp.eq_of_pairwise ?_ hx hy
  intro a b _ _ hab hba
  exact absurd (h.before_trans hab hba) (h.not_before_self a)

end Consistent

end CssQuery.Tree
