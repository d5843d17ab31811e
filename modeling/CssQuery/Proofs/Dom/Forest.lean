import CssQuery.Dom
import CssQuery.Proofs.Tree.Links

namespace CssQuery.Dom

-- Documents made by the operations of this library, where a node is linked only while
-- it has no parent, and never below itself.
inductive Built : Dom → Prop
  | new : Built .new
  | create {dom : Dom} (h : Built dom) (content : Content) : Built (dom.create content).2
  | append {dom next : Dom} {parent child : Node} (h : Built dom)
      (hfree : dom.parent child = none) (hself : parent ≠ child)
      (hbelow : dom.isDescendantOf parent child = false)
      (happend : dom.append? parent child = some next) : Built next
  | setAttribute {dom : Dom} (h : Built dom) (node : Node) (name value : String) :
      Built (dom.setAttribute node name value).2
  | buildIndex {dom : Dom} (h : Built dom) : Built dom.buildIndex

-- The lists of children and the links from node to node tell the same forest.
structure Forest (dom : Dom) : Prop where
  parent_iff : ∀ node parent, dom.parent node = some parent ↔ node ∈ dom.children parent
  children_nodup : ∀ parent, (dom.children parent).Nodup
  siblings : ∀ parent before node after, dom.children parent = before ++ node :: after →
    dom.prevSibling node = before.getLast? ∧ dom.nextSibling node = after.head?
  alone : ∀ node, dom.parent node = none →
    dom.prevSibling node = none ∧ dom.nextSibling node = none
  lt_size : ∀ parent, ∀ node ∈ dom.children parent, node < dom.size
  not_below_self : ∀ node, ¬ Met dom.parent node node

variable {dom next : Dom} {parent child node other : Node} {content : Content}

section Lookup

variable (dom)

theorem get?_eq_none (h : dom.size ≤ node) : dom.get? node = none := Array.getElem?_eq_none h

theorem parent_eq_none (h : dom.size ≤ node) : dom.parent node = none := by
  rw [Dom.parent, get?_eq_none dom h]
  rfl

theorem children_eq_nil (h : dom.size ≤ node) : dom.children node = [] := by
  rw [children, get?_eq_none dom h]
  rfl

theorem elementsWithId_eq_none (h : dom.index = none) (id : String) :
    dom.elementsWithId id = none := by
  rw [elementsWithId, h]
  rfl

theorem lt_size_of_mem (h : other ∈ dom.children node) : node < dom.size := by
  by_contra hn
  simp [children_eq_nil dom (Nat.le_of_not_lt hn)] at h

theorem get?_create (content : Content) (node : Node) : (dom.create content).2.get? node =
    if node = dom.size then some ⟨content, none, [], none, none⟩ else dom.get? node :=
  Array.getElem?_push

end Lookup

theorem size_create (content : Content) : (dom.create content).2.size = dom.size + 1 :=
  Array.size_push _

-- A new node is linked to nothing, as is a node that does not exist.
theorem links_create (content : Content) (node : Node) :
    (dom.create content).2.parent node = dom.parent node ∧
    (dom.create content).2.children node = dom.children node ∧
    (dom.create content).2.nextSibling node = dom.nextSibling node ∧
    (dom.create content).2.prevSibling node = dom.prevSibling node := by
  simp only [Dom.parent, children, Dom.nextSibling, Dom.prevSibling, get?_create]
  by_cases hn : node = dom.size
  · simp [hn, get?_eq_none dom le_rfl]
  · simp [hn]

theorem get?_link (parent child node : Node) : (dom.link parent child).get? node =
    (dom.get? node).map fun r =>
      { r with
        children := if node = parent then r.children ++ [child] else r.children
        parent := if node = child then some parent else r.parent
        nextSibling :=
          if (dom.children parent).getLast? = some node then some child else r.nextSibling
        prevSibling :=
          if node = child then (dom.children parent).getLast?.or r.prevSibling
          else r.prevSibling } := by
  unfold link
  cases hl : (dom.children parent).getLast? with
  | none =>
      simp only [get?, Array.getElem?_modify, eq_comm (a := node)]
      cases dom.records[node]? with
      | none => simp
      | some r => by_cases hp : parent = node <;> by_cases hc : child = node <;> simp [hp, hc]
  | some last =>
      simp only [get?, Array.getElem?_modify, eq_comm (a := node), Option.some.injEq]
      cases dom.records[node]? with
      | none => simp
      | some r =>
          by_cases hp : parent = node <;> by_cases hc : child = node <;>
            by_cases hn : last = node <;> simp [hp, hc, hn]

theorem size_link : (dom.link parent child).size = dom.size := by
  unfold link
  cases (dom.children parent).getLast? <;> simp [size]

theorem index_link (parent child : Node) : (dom.link parent child).index = none := by
  unfold link
  cases (dom.children parent).getLast? <;> rfl

theorem exists_get? (h : node < dom.size) : ∃ r, dom.get? node = some r :=
  ⟨_, Array.getElem?_eq_getElem h⟩

theorem parent_link (hc : child < dom.size) : (dom.link parent child).parent node =
    if node = child then some parent else dom.parent node := by
  simp only [Dom.parent, get?_link]
  by_cases hn : node = child
  · subst hn
    obtain ⟨r, hr⟩ := exists_get? hc
    simp [hr]
  · cases dom.get? node <;> simp [hn]

theorem children_link (hp : parent < dom.size) : (dom.link parent child).children node =
    if node = parent then dom.children node ++ [child] else dom.children node := by
  simp only [children, get?_link]
  by_cases hn : node = parent
  · subst hn
    obtain ⟨r, hr⟩ := exists_get? hp
    simp [hr]
  · cases dom.get? node <;> simp [hn]

theorem prevSibling_link (hc : child < dom.size) : (dom.link parent child).prevSibling node =
    if node = child then (dom.children parent).getLast?.or (dom.prevSibling node)
    else dom.prevSibling node := by
  simp only [Dom.prevSibling, get?_link]
  by_cases hn : node = child
  · subst hn
    obtain ⟨r, hr⟩ := exists_get? hc
    simp [hr]
  · cases dom.get? node <;> simp [hn]

theorem nextSibling_link (hl : ∀ last ∈ dom.children parent, last < dom.size) :
    (dom.link parent child).nextSibling node =
      if (dom.children parent).getLast? = some node then some child
      else dom.nextSibling node := by
  simp only [Dom.nextSibling, get?_link]
  by_cases hn : (dom.children parent).getLast? = some node
  · obtain ⟨r, hr⟩ := exists_get? (hl node (List.mem_of_getLast? hn))
    simp [hr, hn]
  · cases dom.get? node <;> simp [hn]

-- A walk that passes through the new link goes below the child and on from the parent.
theorem met_link (hc : child < dom.size) (hm : Met (dom.link parent child).parent node other) :
    Met dom.parent node other ∨
      (node = child ∨ Met dom.parent node child) ∧
        (other = parent ∨ Met dom.parent parent other) := by
  have hstep : ∀ a b, (dom.link parent child).parent a = some b →
      a = child ∧ b = parent ∨ dom.parent a = some b := by
    intro a b hs
    rw [parent_link hc] at hs
    split at hs
    · next ha => exact .inl ⟨ha, (Option.some.inj hs).symm⟩
    · exact .inr hs
  induction hm with
  | single hs =>
      rcases hstep _ _ hs with ⟨ha, hb⟩ | hs
      · exact .inr ⟨.inl ha, .inl hb⟩
      · exact .inl (.of_step hs)
  | tail _ hs ih =>
      rcases hstep _ _ hs with ⟨ha, hb⟩ | hd
      · refine .inr ⟨?_, .inl hb⟩
        rcases ih with hm | ⟨hn, -⟩
        · exact .inr (ha ▸ hm)
        · exact hn
      · rcases ih with hm | ⟨hn, ho⟩
        · exact .inl (hm.trans (.of_step hd))
        · refine .inr ⟨hn, .inr ?_⟩
          rcases ho with rfl | ho
          · exact .of_step hd
          · exact ho.trans (.of_step hd)

namespace Forest

theorem new : Forest .new := by
  have hget : ∀ node, Dom.new.get? node =
      if node = 0 then some ⟨.document, none, [], none, none⟩ else none := by
    intro node
    cases node <;> rfl
  have hchildren : ∀ node, Dom.new.children node = [] := by
    intro node
    simp only [children, hget]
    split <;> rfl
  have hparent : ∀ node, Dom.new.parent node = none := by
    intro node
    simp only [Dom.parent, hget]
    split <;> rfl
  refine ⟨by simp [hparent, hchildren], by simp [hchildren], by simp [hchildren], ?_,
    by simp [hchildren], fun node hm => Met.ne_none hm (hparent node)⟩
  intro node _
  simp only [Dom.prevSibling, Dom.nextSibling, hget]
  split <;> simp

-- Documents with the same links are alike.
theorem of_links (h : Forest dom) (hsize : dom.size ≤ next.size)
    (hlinks : ∀ node, next.parent node = dom.parent node ∧
      next.children node = dom.children node ∧
      next.nextSibling node = dom.nextSibling node ∧
      next.prevSibling node = dom.prevSibling node) : Forest next := by
  have hparent : next.parent = dom.parent := funext fun node => (hlinks node).1
  have hchildren : next.children = dom.children := funext fun node => (hlinks node).2.1
  have hnext : next.nextSibling = dom.nextSibling := funext fun node => (hlinks node).2.2.1
  have hprev : next.prevSibling = dom.prevSibling := funext fun node => (hlinks node).2.2.2
  refine ⟨?_, ?_, ?_, ?_, ?_, ?_⟩
  · simpa only [hparent, hchildren] using h.parent_iff
  · simpa only [hchildren] using h.children_nodup
  · simpa only [hchildren, hnext, hprev] using h.siblings
  · simpa only [hparent, hnext, hprev] using h.alone
  · simpa only [hchildren] using fun p c hc => (h.lt_size p c hc).trans_le hsize
  · simpa only [hparent] using h.not_below_self

section Append

variable (h : Forest dom) (hp : parent < dom.size) (hc : child < dom.size)
  (hfree : dom.parent child = none)

include h

theorem parent_of_getLast? {q : Node} (hl : (dom.children q).getLast? = some node) :
    dom.parent node = some q :=
  (h.parent_iff node q).2 (List.mem_of_getLast? hl)

include hfree

theorem not_mem_of_free (node : Node) : child ∉ dom.children node := by
  intro hm
  simp [(h.parent_iff child node).2 hm] at hfree

-- The last child is the one without siblings after it.
omit hfree in
theorem getLast?_children_iff {before after : List Node}
    (hs : dom.children parent = before ++ node :: after) :
    (dom.children parent).getLast? = some node ↔ after = [] := by
  have hnext := (h.siblings parent before node after hs).2
  have hd := h.children_nodup parent
  rw [hs, List.nodup_append, List.nodup_cons] at hd
  obtain ⟨hnot, -⟩ := hd.2.1
  rw [hs, List.getLast?_append_of_ne_nil _ (by simp), List.getLast?_cons]
  cases hl : after.getLast? with
  | none => simpa using hl
  | some last =>
      have hm : last ∈ after := List.mem_of_getLast? hl
      have hne : last ≠ node := fun he => hnot (he ▸ hm)
      simp [hne, List.ne_nil_of_mem hm]

include hc

-- The child comes to have the siblings before it, and none after it.
theorem child_siblings_link {before after : List Node}
    (hs : dom.children parent ++ [child] = before ++ child :: after) :
    (dom.link parent child).prevSibling child = before.getLast? ∧
      (dom.link parent child).nextSibling child = after.head? := by
  have hnot := h.not_mem_of_free hfree parent
  obtain ⟨rfl, -, rfl⟩ := (List.append_cons_inj_of_notMem hnot (by simp)).1 hs
  have hne : (dom.children parent).getLast? ≠ some child := by
    intro hl
    exact hnot (List.mem_of_getLast? hl)
  obtain ⟨hprev, hnext⟩ := h.alone child hfree
  rw [prevSibling_link hc, nextSibling_link (h.lt_size parent), if_pos rfl, if_neg hne, hprev,
    hnext]
  simp

-- Of the siblings before it, the child becomes the next one of the last.
theorem sibling_siblings_link {before after : List Node}
    (hs : dom.children parent = before ++ node :: after) :
    (dom.link parent child).prevSibling node = before.getLast? ∧
      (dom.link parent child).nextSibling node = (after ++ [child]).head? := by
  have hnc : node ≠ child := by
    rintro rfl
    exact h.not_mem_of_free hfree parent (by simp [hs])
  obtain ⟨hprev, hnext⟩ := h.siblings parent before node after hs
  have hlast := h.getLast?_children_iff hs
  rw [prevSibling_link hc, nextSibling_link (h.lt_size parent), if_neg hnc]
  refine ⟨hprev, ?_⟩
  by_cases hm : after = []
  · rw [if_pos (hlast.2 hm), hm]
    rfl
  · rw [if_neg (mt hlast.1 hm), hnext]
    exact (List.head?_append_of_ne_nil _ hm).symm

theorem other_siblings_link {q : Node} (hq : q ≠ parent) {before after : List Node}
    (hs : dom.children q = before ++ node :: after) :
    (dom.link parent child).prevSibling node = before.getLast? ∧
      (dom.link parent child).nextSibling node = after.head? := by
  have hpar : dom.parent node = some q := (h.parent_iff node q).2 (by simp [hs])
  have hnc : node ≠ child := by
    rintro rfl
    simp [hpar] at hfree
  have hne : (dom.children parent).getLast? ≠ some node := by
    intro hl
    have hparent := h.parent_of_getLast? hl
    rw [hpar] at hparent
    exact hq (Option.some.inj hparent)
  rw [prevSibling_link hc, nextSibling_link (h.lt_size parent), if_neg hnc, if_neg hne]
  exact h.siblings q before node after hs

include hp

theorem siblings_link {q : Node} {before after : List Node}
    (hs : (dom.link parent child).children q = before ++ node :: after) :
    (dom.link parent child).prevSibling node = before.getLast? ∧
      (dom.link parent child).nextSibling node = after.head? := by
  rw [children_link hp] at hs
  by_cases hq : q = parent
  · subst hq
    rw [if_pos rfl] at hs
    rcases List.eq_nil_or_concat after with rfl | ⟨middle, last, rfl⟩
    · obtain ⟨-, hlast⟩ := List.append_inj' hs rfl
      obtain rfl : child = node := by simpa using hlast
      exact h.child_siblings_link hc hfree hs
    · rw [List.concat_eq_append, ← List.cons_append, ← List.append_assoc] at hs
      obtain ⟨hb, hlast⟩ := List.append_inj' hs rfl
      obtain rfl : child = last := by simpa using hlast
      rw [List.concat_eq_append]
      exact h.sibling_siblings_link hc hfree hb
  · rw [if_neg hq] at hs
    exact h.other_siblings_link hc hfree hq hs

theorem parent_iff_link (q : Node) : (dom.link parent child).parent node = some q ↔
    node ∈ (dom.link parent child).children q := by
  have hnot := h.not_mem_of_free hfree
  rw [parent_link hc, children_link hp]
  by_cases hn : node = child
  · subst hn
    by_cases hq : q = parent
    · simp [hq]
    · simp [hq, hnot, Ne.symm hq]
  · by_cases hq : q = parent <;> simp [hq, hn, h.parent_iff]

omit hc in
theorem children_nodup_link (q : Node) : ((dom.link parent child).children q).Nodup := by
  rw [children_link hp]
  by_cases hq : q = parent
  · have hnot := h.not_mem_of_free hfree q
    rw [if_pos hq, ← List.concat_eq_append]
    exact (h.children_nodup q).concat hnot
  · rw [if_neg hq]
    exact h.children_nodup q

omit hp hfree in
theorem alone_link (hn : (dom.link parent child).parent node = none) :
    (dom.link parent child).prevSibling node = none ∧
      (dom.link parent child).nextSibling node = none := by
  rw [parent_link hc] at hn
  by_cases hnc : node = child
  · simp [hnc] at hn
  · rw [if_neg hnc] at hn
    have hne : (dom.children parent).getLast? ≠ some node := by
      intro hl
      simp [h.parent_of_getLast? hl] at hn
    rw [prevSibling_link hc, nextSibling_link (h.lt_size parent), if_neg hnc, if_neg hne]
    exact h.alone node hn

omit hfree in
theorem lt_size_link {q : Node} (hm : node ∈ (dom.link parent child).children q) :
    node < (dom.link parent child).size := by
  rw [children_link hp] at hm
  rw [size_link]
  split at hm
  · rcases List.mem_append.1 hm with hm | hm
    · exact h.lt_size q node hm
    · rw [List.mem_singleton.1 hm]
      exact hc
  · exact h.lt_size q node hm

theorem link (hself : parent ≠ child) (hbelow : ¬ Met dom.parent parent child) :
    Forest (dom.link parent child) where
  parent_iff _ q := h.parent_iff_link hp hc hfree q
  children_nodup q := h.children_nodup_link hp hfree q
  siblings _ _ _ _ hs := h.siblings_link hp hc hfree hs
  alone _ hn := h.alone_link hc hn
  lt_size _ _ hm := h.lt_size_link hp hc hm
  not_below_self node hm := by
    rcases met_link hc hm with hm | ⟨hnc, hnp⟩
    · exact h.not_below_self node hm
    · rcases hnp with rfl | hnp
      · exact hnc.elim hself hbelow
      · rcases hnc with rfl | hnc
        · exact hbelow hnp
        · exact hbelow (hnp.trans hnc)

end Append

-- No node has more ancestors than there are nodes.
theorem parents (h : Forest dom) : Finishes dom.parent dom.size := by
  refine ⟨h.not_below_self, Finset.range dom.size, by simp, ?_⟩
  intro a b hs
  have hm : a ∈ dom.children b := (h.parent_iff a b).1 hs
  have ha : a < dom.size := h.lt_size b a hm
  have hb : b < dom.size := lt_size_of_mem dom hm
  exact ⟨Finset.mem_range.2 ha, Finset.mem_range.2 hb⟩

theorem isDescendantOf_iff (h : Forest dom) :
    dom.isDescendantOf node other = true ↔ Met dom.parent node other := by
  rw [isDescendantOf, decide_eq_true_iff, ancestors, h.parents.mem_walk]

end Forest

-- Setting an attribute changes what one node holds, or nothing.
theorem records_setAttribute (dom : Dom) (node : Node) (name value : String) :
    (dom.setAttribute node name value).2.records = dom.records ∨
      ∃ content, (dom.setAttribute node name value).2.records =
        dom.records.modify node fun r => { r with content := content } := by
  simp only [setAttribute]
  split
  · exact .inl rfl
  · exact .inr ⟨_, rfl⟩
  · exact .inl rfl

theorem links_setAttribute (dom : Dom) (node : Node) (name value : String) (other : Node) :
    (dom.setAttribute node name value).2.parent other = dom.parent other ∧
    (dom.setAttribute node name value).2.children other = dom.children other ∧
    (dom.setAttribute node name value).2.nextSibling other = dom.nextSibling other ∧
    (dom.setAttribute node name value).2.prevSibling other = dom.prevSibling other := by
  simp only [Dom.parent, children, Dom.nextSibling, Dom.prevSibling, get?]
  rcases records_setAttribute dom node name value with hr | ⟨content, hr⟩
  · simp [hr]
  · rw [hr, Array.getElem?_modify]
    split
    · cases dom.records[other]? <;> simp
    · simp

theorem size_setAttribute (dom : Dom) (node : Node) (name value : String) :
    (dom.setAttribute node name value).2.size = dom.size := by
  rcases records_setAttribute dom node name value with hr | ⟨content, hr⟩ <;> simp [size, hr]

theorem append?_eq_some :
    dom.append? parent child = some next ↔
      parent < dom.size ∧ child < dom.size ∧ dom.link parent child = next := by
  unfold append?
  split
  · next h => simp [h.1, h.2]
  · next h => simpa using fun hp hc => absurd ⟨hp, hc⟩ h

theorem Forest.create (h : Forest dom) (content : Content) : Forest (dom.create content).2 :=
  h.of_links (size_create content ▸ Nat.le_succ _) (links_create content)

theorem Forest.append (h : Forest dom) (hfree : dom.parent child = none) (hself : parent ≠ child)
    (hbelow : dom.isDescendantOf parent child = false)
    (happend : dom.append? parent child = some next) : Forest next := by
  obtain ⟨hp, hc, rfl⟩ := append?_eq_some.1 happend
  refine h.link hp hc hfree hself fun hm => ?_
  simp [h.isDescendantOf_iff.2 hm] at hbelow

-- However a document is built, its nodes lie in trees.
theorem Built.forest (h : Built dom) : Forest dom := by
  induction h with
  | new => exact .new
  | create _ content ih => exact ih.create content
  | append _ hfree hself hbelow happend ih => exact ih.append hfree hself hbelow happend
  | setAttribute _ node name value ih =>
      exact ih.of_links (size_setAttribute ..).ge (links_setAttribute _ node name value)
  | buildIndex _ ih => exact ih.of_links le_rfl fun _ => ⟨rfl, rfl, rfl, rfl⟩

end CssQuery.Dom
