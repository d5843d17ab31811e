import CssQuery.Proofs.Tree.Links

namespace CssQuery.Tree

variable (tree : Tree)

-- A node comes before what lies below it, and the subtree of a sibling before those of
-- the siblings after it.
def Before (a b : Node) : Prop :=
  tree.Below b a ∨ ∃ x y, tree.Earlier x y ∧ tree.Inside a x ∧ tree.Inside b y

-- Links in either direction lead from one node to the other.
def Connected : Node → Node → Prop :=
  Relation.EqvGen fun a b => tree.parent a = some b ∨ tree.nextSibling a = some b

-- Siblings, or one node.
def Beside (x y : Node) : Prop := x = y ∨ tree.Earlier x y ∨ tree.Earlier y x

variable {tree} {a b c p x y z : Node} {xs ys : List Node}

theorem Before.of_below (hb : tree.Below b a) : tree.Before a b := .inl hb

theorem Before.of_earlier (he : tree.Earlier x y) (hx : tree.Inside a x) (hy : tree.Inside b y) :
    tree.Before a b :=
  .inr ⟨x, y, he, hx, hy⟩

theorem pathOrder_append (tree : Tree) (start xs ys : List Node) :
    tree.pathOrder (start ++ xs) (start ++ ys) = tree.pathOrder xs ys := by
  induction start with
  | nil => rfl
  | cons x start ih => simpa only [List.cons_append, pathOrder, ite_true] using ih

theorem lineage_root (hp : tree.parent a = none) : tree.lineage a = [a] := by
  simp [lineage, ancestors_eq_nil hp]

theorem Inside.connected (hi : tree.Inside a b) : tree.Connected a b := by
  rcases hi with rfl | hb
  · exact .refl a
  · induction hb with
    | single hp => exact .rel _ _ (.inl hp)
    | tail _ hp ih => exact ih.trans _ _ _ (.rel _ _ (.inl hp))

theorem Earlier.connected (he : tree.Earlier a b) : tree.Connected a b := by
  induction he with
  | single hn => exact .rel _ _ (.inr hn)
  | tail _ hn ih => exact ih.trans _ _ _ (.rel _ _ (.inr hn))

theorem connected_of_inside (ha : tree.Inside a z) (hb : tree.Inside b z) :
    tree.Connected a b :=
  ha.connected.trans _ _ _ (hb.connected.symm _ _)

theorem connected_singleton (tree : Tree) (root : Node) :
    ∀ a ∈ [root], ∀ b ∈ [root], tree.Connected a b := by
  intro a ha b hb
  rw [List.mem_singleton.1 ha, List.mem_singleton.1 hb]
  exact .refl root

namespace Consistent

variable (h : tree.Consistent)

include h

theorem lineage_child (hp : tree.parent a = some p) :
    tree.lineage a = tree.lineage p ++ [a] := by
  simp only [lineage, h.ancestors_eq_cons hp, List.reverse_cons]

theorem mem_lineage : x ∈ tree.lineage a ↔ tree.Inside a x := by
  simp only [lineage, List.mem_reverse, List.mem_cons, h.mem_ancestors, Inside, eq_comm]

-- The way to a node goes on to all that lies below it.
theorem lineage_of_inside (hi : tree.Inside b a) :
    ∃ rest, tree.lineage b = tree.lineage a ++ rest := by
  induction b using h.parents.wellFounded.induction with
  | _ b ih =>
      rcases hi with rfl | hb
      · exact ⟨[], (List.append_nil _).symm⟩
      · obtain ⟨p, hp, hi⟩ := below_iff.1 hb
        obtain ⟨rest, hr⟩ := ih p hp hi
        exact ⟨rest ++ [b], by rw [h.lineage_child hp, hr, List.append_assoc]⟩

theorem lineage_of_below (hb : tree.Below b a) :
    ∃ x rest, tree.lineage b = tree.lineage a ++ x :: rest := by
  obtain ⟨rest, hr⟩ := h.lineage_of_inside hb.inside
  cases rest with
  | nil =>
      rw [List.append_nil] at hr
      have hm : b ∈ tree.lineage a := hr ▸ h.mem_lineage.2 .refl
      exact (h.not_below_self a ((h.mem_lineage.1 hm).below hb)).elim
  | cons x rest => exact ⟨x, rest, hr⟩

-- The ways to two siblings part only there.
theorem lineage_of_earlier (he : tree.Earlier x y) :
    ∃ start, tree.lineage x = start ++ [x] ∧ tree.lineage y = start ++ [y] := by
  have hxy := h.parent_eq he
  cases hp : tree.parent x with
  | none => exact ⟨[], lineage_root hp, lineage_root (hxy ▸ hp)⟩
  | some p => exact ⟨tree.lineage p, h.lineage_child hp, h.lineage_child (hxy ▸ hp)⟩

theorem orderOfSiblings_of_earlier (he : tree.Earlier x y) :
    tree.orderOfSiblings x y = .lt ∧ tree.orderOfSiblings y x = .gt := by
  have hn : ¬ tree.Earlier y x := fun hr => h.not_earlier_self x (he.trans hr)
  simp [orderOfSiblings, h.mem_following, h.mem_preceding, he, hn]

theorem order_of_before (hb : tree.Before a b) :
    tree.order a b = .lt ∧ tree.order b a = .gt := by
  rcases hb with hb | ⟨x, y, he, hx, hy⟩
  · have hne : a ≠ b := by
      rintro rfl
      exact h.not_below_self a hb
    obtain ⟨x, rest, hr⟩ := h.lineage_of_below hb
    have hlt := pathOrder_append tree (tree.lineage a) [] (x :: rest)
    have hgt := pathOrder_append tree (tree.lineage a) (x :: rest) []
    rw [List.append_nil] at hlt hgt
    simp [order, hne, hne.symm, hr, hlt, hgt, pathOrder]
  · have hne : a ≠ b := by
      rintro rfl
      exact h.not_inside_both he hx hy
    have hxy : x ≠ y := by
      rintro rfl
      exact h.not_earlier_self x he
    obtain ⟨start, hsx, hsy⟩ := h.lineage_of_earlier he
    obtain ⟨r, hr⟩ := h.lineage_of_inside hx
    obtain ⟨s, hs⟩ := h.lineage_of_inside hy
    rw [hsx, List.append_assoc] at hr
    rw [hsy, List.append_assoc] at hs
    obtain ⟨hlt, hgt⟩ := h.orderOfSiblings_of_earlier he
    simp [order, hne, hne.symm, hr, hs, pathOrder_append, pathOrder, hxy, hxy.symm, hlt, hgt]

theorem orderOfSiblings_eq_lt (ho : tree.orderOfSiblings x y = .lt) : tree.Earlier x y := by
  unfold orderOfSiblings at ho
  split_ifs at ho with hf
  exact h.mem_following.1 hf

-- Where one way comes before another, the other goes on from it, or they part at siblings.
theorem pathOrder_eq_lt (ho : tree.pathOrder xs ys = .lt) :
    xs <+: ys ∨ ∃ x ∈ xs, ∃ y ∈ ys, tree.Earlier x y := by
  induction xs generalizing ys with
  | nil => exact .inl (List.nil_prefix ..)
  | cons x xs ih =>
      cases ys with
      | nil => simp [pathOrder] at ho
      | cons y ys =>
          by_cases hxy : x = y
          · subst hxy
            simp only [pathOrder, ite_true] at ho
            rcases ih ho with hprefix | ⟨u, hu, v, hv, he⟩
            · exact .inl ((List.prefix_cons_inj x).2 hprefix)
            · exact .inr ⟨u, .tail _ hu, v, .tail _ hv, he⟩
          · simp only [pathOrder, hxy, ite_false] at ho
            exact .inr ⟨x, .head _, y, .head _, h.orderOfSiblings_eq_lt ho⟩

theorem below_of_prefix (hne : a ≠ b) (hp : tree.lineage a <+: tree.lineage b) :
    tree.Below b a := by
  have hm : a ∈ tree.lineage b := hp.subset (h.mem_lineage.2 .refl)
  exact (h.mem_lineage.1 hm).resolve_left (Ne.symm hne)

theorem order_eq_lt_iff : tree.order a b = .lt ↔ tree.Before a b := by
  refine ⟨?_, fun hb => (h.order_of_before hb).1⟩
  intro ho
  unfold order at ho
  split at ho
  · simp at ho
  · next hne =>
      rcases h.pathOrder_eq_lt ho with hp | ⟨x, hx, y, hy, he⟩
      · exact .of_below (h.below_of_prefix hne hp)
      · exact .of_earlier he (h.mem_lineage.1 hx) (h.mem_lineage.1 hy)

theorem not_before_self (a : Node) : ¬ tree.Before a a := by
  intro hb
  have ho := (h.order_of_before hb).1
  simp [order] at ho

-- What follows a node in document order follows what lies above or before it.
theorem before_trans (hab : tree.Before a b) (hbc : tree.Before b c) : tree.Before a c := by
  rcases hab with hba | ⟨x, y, he, hax, hby⟩
  · rcases hbc with hcb | ⟨x, y, he, hbx, hcy⟩
    · exact .of_below (hcb.trans hba)
    · rcases hba.inside.total hbx with hax | hxa
      · exact .of_earlier he hax hcy
      · have hya : tree.Below y a := (h.below_sibling he).1 hxa
        exact .of_below (hcy.below hya)
  · rcases hbc with hcb | ⟨u, v, hf, hbu, hcv⟩
    · exact .of_earlier he hax (hcb.of_inside hby).inside
    · rcases hby.total hbu with (rfl | hyu) | huy
      · exact .of_earlier (he.trans hf) hax hcv
      · have hxu : tree.Below x u := (h.below_sibling he).2 hyu
        exact .of_earlier hf (hax.below hxu).inside hcv
      · have hvy : tree.Below v y := (h.below_sibling hf).1 huy
        exact .of_earlier he hax (hcv.below hvy).inside

theorem before_total_of_inside (ha : tree.Inside a z) (hb : tree.Inside b z) :
    a = b ∨ tree.Before a b ∨ tree.Before b a := by
  induction a using h.parents.wellFounded.induction with
  | _ a ih =>
      rcases ha with rfl | ha
      · exact hb.imp Eq.symm fun hb => .inl (.of_below hb)
      · obtain ⟨p, hp, hi⟩ := below_iff.1 ha
        have hap : tree.Below a p := .of_parent hp
        rcases ih p hp hi with rfl | (hbp | ⟨x, y, he, hx, hy⟩) | (hpb | ⟨x, y, he, hx, hy⟩)
        · exact .inr (.inr (.of_below hap))
        · -- the children that the two nodes lie inside are siblings
          obtain ⟨c, hc, hbc⟩ := hbp.exists_child
          rcases h.siblings_total hp hc with rfl | he | he
          · exact hbc.imp Eq.symm fun hb => .inl (.of_below hb)
          · exact .inr (.inl (.of_earlier he .refl hbc))
          · exact .inr (.inr (.of_earlier he hbc .refl))
        · have hax := (hap.of_inside hx).inside
          exact .inr (.inl (.of_earlier he hax hy))
        · exact .inr (.inr (.of_below (hap.trans hpb)))
        · have hay := (hap.of_inside hy).inside
          exact .inr (.inr (.of_earlier he hx hay))

theorem exists_top (a : Node) : ∃ top, tree.Inside a top ∧ tree.parent top = none := by
  induction a using h.parents.wellFounded.induction with
  | _ a ih =>
      cases hp : tree.parent a with
      | none => exact ⟨a, .refl, hp⟩
      | some p =>
          obtain ⟨top, hi, ht⟩ := ih p hp
          have hap : tree.Below a p := .of_parent hp
          exact ⟨top, (hap.of_inside hi).inside, ht⟩

omit h in
theorem top_unique (hx : tree.Inside a x) (hy : tree.Inside a y) (hxp : tree.parent x = none)
    (hyp : tree.parent y = none) : x = y := by
  rcases hx.total hy with (he | hb) | hb
  · exact he
  · exact absurd hxp hb.ne_none
  · exact absurd hyp hb.ne_none

theorem beside_trans (hxy : tree.Beside x y) (hyz : tree.Beside y z) : tree.Beside x z := by
  have hback : ∀ {u v}, tree.Earlier u v → Met tree.prevSibling v u := (met_reverse h.next_iff).1
  have hforth : ∀ {u v}, Met tree.prevSibling v u → tree.Earlier u v := (met_reverse h.next_iff).2
  rcases hxy with rfl | hxy | hyx
  · exact hyz
  · rcases hyz with rfl | hyz | hzy
    · exact .inr (.inl hxy)
    · exact .inr (.inl (hxy.trans hyz))
    · -- both are met on the way back from the third
      rcases Met.total (hback hxy) (hback hzy) with he | he | he
      · exact .inl he
      · exact .inr (.inr (hforth he))
      · exact .inr (.inl (hforth he))
  · rcases hyz with rfl | hyz | hzy
    · exact .inr (.inr hyx)
    · exact Met.total hyx hyz
    · exact .inr (.inr (hzy.trans hyx))

-- The topmost nodes above two connected ones are siblings, or the same.
theorem exists_tops (hc : tree.Connected a b) :
    ∃ x y, tree.Inside a x ∧ tree.Inside b y ∧ tree.parent x = none ∧ tree.parent y = none ∧
      tree.Beside x y := by
  induction hc with
  | rel a b hl =>
      rcases hl with hp | hn
      · obtain ⟨top, hi, ht⟩ := h.exists_top b
        have hab : tree.Below a b := .of_parent hp
        exact ⟨top, top, (hab.of_inside hi).inside, hi, ht, ht, .inl rfl⟩
      · have hpar := h.parent_next a b hn
        cases hp : tree.parent a with
        | none => exact ⟨a, b, .refl, .refl, hp, hpar ▸ hp, .inr (.inl (.of_step hn))⟩
        | some p =>
            obtain ⟨top, hi, ht⟩ := h.exists_top p
            have ha : tree.Below a p := .of_parent hp
            have hb : tree.Below b p := .of_parent (hpar ▸ hp)
            exact ⟨top, top, (ha.of_inside hi).inside, (hb.of_inside hi).inside, ht, ht, .inl rfl⟩
  | refl a =>
      obtain ⟨top, hi, ht⟩ := h.exists_top a
      exact ⟨top, top, hi, hi, ht, ht, .inl rfl⟩
  | symm a b _ ih =>
      obtain ⟨x, y, hx, hy, hxp, hyp, hxy⟩ := ih
      exact ⟨y, x, hy, hx, hyp, hxp, hxy.imp Eq.symm Or.symm⟩
  | trans a b c _ _ ihab ihbc =>
      obtain ⟨x, y, hx, hy, hxp, hyp, hxy⟩ := ihab
      obtain ⟨u, v, hu, hv, hup, hvp, huv⟩ := ihbc
      obtain rfl := top_unique hy hu hyp hup
      exact ⟨x, v, hx, hv, hxp, hvp, h.beside_trans hxy huv⟩

-- Document order leaves no two nodes of one tree apart.
theorem before_total (hc : tree.Connected a b) : a = b ∨ tree.Before a b ∨ tree.Before b a := by
  obtain ⟨x, y, hx, hy, -, -, rfl | he | he⟩ := h.exists_tops hc
  · exact h.before_total_of_inside hx hy
  · exact .inr (.inl (.of_earlier he hx hy))
  · exact .inr (.inr (.of_earlier he hy hx))

end Consistent

end CssQuery.Tree
