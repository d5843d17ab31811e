import CssQuery.Proofs.Tree.Walk

namespace CssQuery.Tree

variable (tree : Tree)

-- A node lies below each of its ancestors.
def Below (a b : Node) : Prop := Met tree.parent a b

-- The subtree of a node holds the node and what lies below it.
def Inside (a b : Node) : Prop := a = b ∨ tree.Below a b

-- A sibling met before another one.
def Earlier (a b : Node) : Prop := Met tree.nextSibling a b

-- The links tell one story: neighbours name each other and share their parent, and a
-- first child is a child that has no earlier sibling. No node is its own ancestor or
-- its own sibling, and no more nodes are linked than the tree may walk along.
structure Consistent : Prop where
  next_iff : ∀ a b, tree.nextSibling a = some b ↔ tree.prevSibling b = some a
  parent_next : ∀ a b, tree.nextSibling a = some b → tree.parent a = tree.parent b
  firstChild_iff : ∀ p c,
    tree.firstChild p = some c ↔ tree.parent c = some p ∧ tree.prevSibling c = none
  not_below_self : ∀ a, ¬ tree.Below a a
  not_earlier_self : ∀ a, ¬ tree.Earlier a a
  within : ∃ nodes : Finset Node, nodes.card ≤ tree.size ∧
    ∀ a b, tree.parent a = some b ∨ tree.nextSibling a = some b → a ∈ nodes ∧ b ∈ nodes

variable {tree} {a b c p x y z : Node}

theorem Inside.refl : tree.Inside a a := .inl rfl

theorem Below.inside (h : tree.Below a b) : tree.Inside a b := .inr h

theorem Below.trans (hab : tree.Below a b) (hbc : tree.Below b c) : tree.Below a c :=
  Met.trans hab hbc

theorem Inside.below (hab : tree.Inside a b) (hbc : tree.Below b c) : tree.Below a c := by
  rcases hab with rfl | hab
  · exact hbc
  · exact hab.trans hbc

theorem Below.of_inside (hab : tree.Below a b) (hbc : tree.Inside b c) : tree.Below a c := by
  rcases hbc with rfl | hbc
  · exact hab
  · exact hab.trans hbc

theorem Inside.trans (hab : tree.Inside a b) (hbc : tree.Inside b c) : tree.Inside a c := by
  rcases hab with rfl | hab
  · exact hbc
  · exact (hab.of_inside hbc).inside

theorem below_iff : tree.Below a b ↔ ∃ p, tree.parent a = some p ∧ tree.Inside p b := by
  rw [Below, met_iff]
  simp only [Inside, Below, eq_comm]

theorem Below.of_parent (h : tree.parent a = some p) : tree.Below a p := Met.of_step h

-- What lies below a node lies in the subtree of a child.
theorem Below.exists_child (hb : tree.Below a p) :
    ∃ c, tree.parent c = some p ∧ tree.Inside a c := by
  obtain ⟨c, hc, hs⟩ := Relation.TransGen.tail'_iff.1 hb
  refine ⟨c, hs, ?_⟩
  rcases Relation.reflTransGen_iff_eq_or_transGen.1 hc with he | hm
  · exact .inl he.symm
  · exact .inr hm

theorem ancestors_eq_nil (hp : tree.parent a = none) : tree.ancestors a = [] := walk_eq_nil hp

-- The ancestors of a node form a chain.
theorem Inside.total (hb : tree.Inside a b) (hc : tree.Inside a c) :
    tree.Inside b c ∨ tree.Below c b := by
  rcases hb with rfl | hb
  · exact .inl hc
  · rcases hc with rfl | hc
    · exact .inr hb
    · rcases Met.total hb hc with rfl | h | h
      · exact .inl .refl
      · exact .inl (.inr h)
      · exact .inr h

theorem Earlier.trans (hab : tree.Earlier a b) (hbc : tree.Earlier b c) : tree.Earlier a c :=
  Met.trans hab hbc

-- Trees with the same links are alike.
theorem Consistent.of_links {other : Tree} (h : tree.Consistent) (hsize : other.size = tree.size)
    (hparent : other.parent = tree.parent) (hfirst : other.firstChild = tree.firstChild)
    (hnext : other.nextSibling = tree.nextSibling)
    (hprev : other.prevSibling = tree.prevSibling) : other.Consistent where
  next_iff := by simpa only [hnext, hprev] using h.next_iff
  parent_next := by simpa only [hnext, hparent] using h.parent_next
  firstChild_iff := by simpa only [hfirst, hparent, hprev] using h.firstChild_iff
  not_below_self := by simpa only [Below, hparent] using h.not_below_self
  not_earlier_self := by simpa only [Earlier, hnext] using h.not_earlier_self
  within := by simpa only [hsize, hparent, hnext] using h.within

namespace Consistent

variable (h : tree.Consistent)

include h

theorem parents : Finishes tree.parent tree.size := by
  obtain ⟨nodes, hcard, hnodes⟩ := h.within
  exact ⟨h.not_below_self, nodes, hcard, fun a b hs => hnodes a b (.inl hs)⟩

theorem nexts : Finishes tree.nextSibling tree.size := by
  obtain ⟨nodes, hcard, hnodes⟩ := h.within
  exact ⟨h.not_earlier_self, nodes, hcard, fun a b hs => hnodes a b (.inr hs)⟩

theorem prevs : Finishes tree.prevSibling tree.size :=
  h.nexts.reverse fun a b => (h.next_iff b a).symm

theorem mem_ancestors : b ∈ tree.ancestors a ↔ tree.Below a b := h.parents.mem_walk

theorem mem_following : b ∈ tree.following a ↔ tree.Earlier a b := h.nexts.mem_walk

theorem mem_preceding : b ∈ tree.preceding a ↔ tree.Earlier b a := by
  rw [preceding, h.prevs.mem_walk]
  exact (met_reverse h.next_iff).symm

theorem ancestors_eq_cons (hp : tree.parent a = some p) :
    tree.ancestors a = p :: tree.ancestors p :=
  h.parents.walk_eq_cons hp

theorem parent_eq (he : tree.Earlier a b) : tree.parent a = tree.parent b := by
  induction he with
  | single hs => exact h.parent_next _ _ hs
  | tail _ hs ih => exact ih.trans (h.parent_next _ _ hs)

-- Each child is met from the first one.
theorem exists_first (hp : tree.parent a = some p) :
    ∃ first, tree.firstChild p = some first ∧ (a = first ∨ tree.Earlier first a) := by
  induction a using h.prevs.wellFounded.induction with
  | _ a ih =>
      cases hs : tree.prevSibling a with
      | none => exact ⟨a, (h.firstChild_iff p a).2 ⟨hp, hs⟩, .inl rfl⟩
      | some b =>
          have hn := (h.next_iff b a).2 hs
          obtain ⟨first, hf, hb⟩ := ih b hs ((h.parent_next b a hn).trans hp)
          refine ⟨first, hf, .inr ?_⟩
          rcases hb with rfl | hb
          · exact .of_step hn
          · exact hb.trans (.of_step hn)

theorem siblings_total (ha : tree.parent a = some p) (hb : tree.parent b = some p) :
    a = b ∨ tree.Earlier a b ∨ tree.Earlier b a := by
  obtain ⟨first, hf, ha⟩ := h.exists_first ha
  obtain ⟨first', hf', hb⟩ := h.exists_first hb
  obtain rfl : first = first' := Option.some.inj (hf.symm.trans hf')
  rcases ha with rfl | ha
  · exact hb.imp Eq.symm .inl
  · rcases hb with rfl | hb
    · exact .inr (.inr ha)
    · exact Met.total ha hb

theorem child_of_firstChild (hc : tree.firstChild p = some c) (ha : tree.parent a = some p) :
    a = c ∨ tree.Earlier c a := by
  obtain ⟨first, hf, hfa⟩ := h.exists_first ha
  obtain rfl : c = first := Option.some.inj (hc.symm.trans hf)
  exact hfa

theorem not_below_of_firstChild (hc : tree.firstChild p = none) : ¬ tree.Below a p := by
  intro hb
  obtain ⟨c, hp, -⟩ := hb.exists_child
  obtain ⟨first, hf, -⟩ := h.exists_first hp
  simp [hc] at hf

theorem below_of_firstChild (hc : tree.firstChild p = some c) : tree.Below c p :=
  .of_parent ((h.firstChild_iff p c).1 hc).1

-- A sibling of a node lies below what the node lies below.
theorem below_sibling (he : tree.Earlier x y) : tree.Below x z ↔ tree.Below y z := by
  rw [below_iff, below_iff, h.parent_eq he]

-- Subtrees of siblings have no node in common.
theorem not_inside_both (he : tree.Earlier x y) (hx : tree.Inside a x) (hy : tree.Inside a y) :
    False := by
  rcases hx.total hy with hi | hb
  · rcases hi with rfl | hb
    · exact h.not_earlier_self x he
    · exact h.not_below_self y ((h.below_sibling he).1 hb)
  · exact h.not_below_self x ((h.below_sibling he).2 hb)

end Consistent

end CssQuery.Tree
