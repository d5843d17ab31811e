import CssQuery.Proofs.Tree.Links

namespace CssQuery.Tree

variable (tree : Tree)

-- The first of the siblings that a node is linked to, which may be the node itself.
def Leads (first a : Node) : Prop :=
  (a = first ∨ tree.Earlier first a) ∧ tree.prevSibling first = none

variable {tree} {a b c first other p : Node}

theorem mem_precedingElements :
    b ∈ tree.precedingElements a ↔ b ∈ tree.preceding a ∧ tree.isElement b = true :=
  List.mem_filter

theorem mem_followingElements :
    b ∈ tree.followingElements a ↔ b ∈ tree.following a ∧ tree.isElement b = true :=
  List.mem_filter

theorem prevElement_eq_none : tree.prevElement a = none ↔ tree.precedingElements a = [] :=
  List.head?_eq_none_iff

theorem nextElement_eq_none : tree.nextElement a = none ↔ tree.followingElements a = [] :=
  List.head?_eq_none_iff

theorem parentElement_eq_some :
    tree.parentElement a = some p ↔ tree.parent a = some p ∧ tree.isElement p = true := by
  simp [parentElement, Option.filter_eq_some_iff]

namespace Consistent

variable (h : tree.Consistent)

include h

theorem following_eq_cons (hn : tree.nextSibling a = some b) :
    tree.following a = b :: tree.following b :=
  h.nexts.walk_eq_cons hn

theorem preceding_eq_cons (hp : tree.prevSibling a = some b) :
    tree.preceding a = b :: tree.preceding b :=
  h.prevs.walk_eq_cons hp

-- A node and the sibling before it have the same first sibling.
theorem leads_congr (hp : tree.prevSibling a = some b) :
    tree.Leads first a ↔ tree.Leads first b := by
  have hba : tree.Earlier b a := .of_step ((h.next_iff b a).2 hp)
  constructor
  · rintro ⟨hl, hf⟩
    refine ⟨?_, hf⟩
    rcases hl with rfl | he
    · simp [hf] at hp
    · have hback : Met tree.prevSibling a first := (met_reverse h.next_iff).1 he
      rcases Met.of_cons hback hp with rfl | hback
      · exact .inl rfl
      · exact .inr ((met_reverse h.next_iff).2 hback)
  · rintro ⟨hl, hf⟩
    refine ⟨.inr ?_, hf⟩
    rcases hl with rfl | he
    · exact hba
    · exact he.trans hba

theorem leads_iff : tree.Leads first a ↔ (tree.preceding a).getLast?.getD a = first := by
  induction a using h.prevs.wellFounded.induction with
  | _ a ih =>
      cases hp : tree.prevSibling a with
      | none =>
          rw [preceding, walk_eq_nil hp, List.getLast?_nil, Option.getD_none]
          constructor
          · rintro ⟨rfl | he, -⟩
            · rfl
            · exact absurd hp (Met.ne_none ((met_reverse h.next_iff).1 he))
          · rintro rfl
            exact ⟨.inl rfl, hp⟩
      | some b =>
          rw [h.preceding_eq_cons hp, List.getLast?_cons, Option.getD_some, ← ih b hp,
            h.leads_congr hp]

theorem exists_leads (a : Node) : ∃ first, tree.Leads first a := ⟨_, h.leads_iff.2 rfl⟩

theorem siblings_eq_cons (hl : tree.Leads first a) :
    tree.siblings a = first :: tree.following first := by
  cases hp : tree.parent a with
  | none => simp only [siblings, hp, Option.bind_none, h.leads_iff.1 hl]
  | some p =>
      have hpf : tree.parent first = some p := by
        rcases hl.1 with rfl | he
        · exact hp
        · exact (h.parent_eq he).trans hp
      have hf := (h.firstChild_iff p first).2 ⟨hpf, hl.2⟩
      simp only [siblings, hp, Option.bind_some, hf]

-- The siblings of a node are those before it, the node, and those after it.
theorem siblings_eq (a : Node) :
    tree.siblings a = (tree.preceding a).reverse ++ a :: tree.following a := by
  obtain ⟨first, hl⟩ := h.exists_leads a
  rw [h.siblings_eq_cons hl]
  induction a using h.prevs.wellFounded.induction with
  | _ a ih =>
      cases hp : tree.prevSibling a with
      | none =>
          have hf := h.leads_iff.1 hl
          rw [preceding, walk_eq_nil hp] at hf ⊢
          obtain rfl : a = first := hf
          rfl
      | some b =>
          have hn := (h.next_iff b a).2 hp
          rw [ih b hp ((h.leads_congr hp).1 hl), h.preceding_eq_cons hp, h.following_eq_cons hn,
            List.reverse_cons, List.append_assoc]
          rfl

-- All siblings agree on which nodes they are.
theorem siblings_congr (hb : b ∈ tree.siblings a) : tree.siblings b = tree.siblings a := by
  obtain ⟨first, hl⟩ := h.exists_leads a
  rw [h.siblings_eq_cons hl] at hb ⊢
  refine h.siblings_eq_cons ⟨?_, hl.2⟩
  exact (List.mem_cons.1 hb).imp_right h.mem_following.1

theorem siblings_nodup (a : Node) : (tree.siblings a).Nodup := by
  obtain ⟨first, hl⟩ := h.exists_leads a
  rw [h.siblings_eq_cons hl]
  exact h.nexts.nodup

theorem elementSiblings_congr (hb : b ∈ tree.elementSiblings a) :
    tree.elementSiblings b = tree.elementSiblings a := by
  rw [elementSiblings, h.siblings_congr (List.mem_filter.1 hb).1, elementSiblings]

theorem elementSiblings_nodup (a : Node) : (tree.elementSiblings a).Nodup :=
  (h.siblings_nodup a).filter _

theorem elementSiblings_eq (ha : tree.isElement a = true) :
    tree.elementSiblings a =
      (tree.precedingElements a).reverse ++ a :: tree.followingElements a := by
  rw [elementSiblings, h.siblings_eq, List.filter_append, List.filter_reverse,
    List.filter_cons_of_pos ha]
  rfl

end Consistent

end CssQuery.Tree
