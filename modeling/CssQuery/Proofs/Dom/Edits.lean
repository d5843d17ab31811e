import CssQuery.Proofs.Dom.Links

namespace CssQuery.Dom

-- The calls that make nodes and link them. A node may be made and linked at once.
inductive Edit where
  | create (content : Content)
  | appendNew (parent : Node) (content : Content)
  | append (parent child : Node)

-- What a call makes of a document, if the nodes that it names exist.
def Edit.apply? (dom : Dom) : Edit → Option Dom
  | .create content => some (dom.create content).2
  | .appendNew parent content => (dom.appendNew? parent content).map (·.2)
  | .append parent child => dom.append? parent child

-- A node that has no parent may be linked, but neither to itself nor to a node below it.
structure Linkable (dom : Dom) (parent child : Node) : Prop where
  free : dom.parent child = none
  not_self : parent ≠ child
  not_below : dom.isDescendantOf parent child = false

-- A new node is linked after it was made, so it must not be its own parent either.
def Edit.Proper (dom : Dom) : Edit → Prop
  | .create _ => True
  | .appendNew parent content => (dom.create content).2.Linkable parent dom.size
  | .append parent child => dom.Linkable parent child

inductive Run : Dom → List Edit → Dom → Prop
  | nil {dom : Dom} : Run dom [] dom
  | cons {dom next last : Dom} {edit : Edit} {more : List Edit} (hproper : edit.Proper dom)
      (happly : edit.apply? dom = some next) (hrun : Run next more last) :
      Run dom (edit :: more) last

variable {dom next last : Dom} {edits : List Edit} {node parent x y : Node}

theorem Built.append_linkable {child : Node} (h : Built dom) (hl : dom.Linkable parent child)
    (happend : dom.append? parent child = some next) : Built next :=
  h.append hl.free hl.not_self hl.not_below happend

theorem Built.edit {edit : Edit} (h : Built dom) (hproper : edit.Proper dom)
    (happly : edit.apply? dom = some next) : Built next := by
  cases edit with
  | create content =>
      obtain rfl := Option.some.inj happly
      exact h.create content
  | appendNew parent content =>
      obtain ⟨made, hmade, rfl⟩ := Option.map_eq_some_iff.1 happly
      obtain ⟨linked, hlinked, rfl⟩ := Option.map_eq_some_iff.1 hmade
      exact (h.create content).append_linkable hproper hlinked
  | append parent child => exact h.append_linkable hproper happly

theorem Built.run (h : Built dom) (hrun : Run dom edits last) : Built last := by
  induction hrun with
  | nil => exact h
  | cons hproper happly _ ih => exact ih (h.edit hproper happly)

theorem Built.size_pos (h : Built dom) : 0 < dom.size := by
  induction h with
  | new => exact Nat.one_pos
  | create _ content ih => exact size_create content ▸ Nat.succ_pos _
  | append _ _ _ _ happend _ =>
      obtain ⟨hp, -, rfl⟩ := append?_eq_some.1 happend
      rw [size_link]
      exact Nat.zero_lt_of_lt hp
  | setAttribute _ node name value ih =>
      rw [size_setAttribute]
      exact ih
  | buildIndex _ ih => exact ih

-- The four kinds of links agree, lead to nodes that exist, and never go round.
structure Coherent (dom : Dom) : Prop where
  linked_lt : ∀ node other, dom.parent node = some other ∨ other ∈ dom.children node ∨
    dom.nextSibling node = some other ∨ dom.prevSibling node = some other → other < dom.size
  parent_iff : ∀ node parent, dom.parent node = some parent ↔ node ∈ dom.children parent
  count_eq_one : ∀ node parent, node ∈ dom.children parent →
    (dom.children parent).count node = 1
  neighbours : ∀ parent before x y after, dom.children parent = before ++ x :: y :: after →
    dom.nextSibling x = some y ∧ dom.prevSibling y = some x
  head : ∀ parent x, (dom.children parent).head? = some x → dom.prevSibling x = none
  last : ∀ parent x, (dom.children parent).getLast? = some x → dom.nextSibling x = none
  alone : ∀ node, dom.parent node = none →
    dom.prevSibling node = none ∧ dom.nextSibling node = none
  ends : ∀ step ∈ [dom.parent, dom.nextSibling, dom.prevSibling], ∀ node,
    (Option.bind · step)^[dom.size] (some node) = none

namespace Forest

variable (h : Forest dom)

include h

theorem lt_of_linked (hl : dom.parent node = some x ∨ x ∈ dom.children node ∨
    dom.nextSibling node = some x ∨ dom.prevSibling node = some x) : x < dom.size := by
  rcases hl with hp | hc | hn | hv
  · exact lt_size_of_mem dom ((h.parent_iff node x).1 hp)
  · exact h.lt_size node x hc
  · obtain ⟨p, before, after, hs⟩ := h.nextSibling_iff.1 hn
    exact h.lt_size p x (by simp [hs])
  · obtain ⟨p, before, after, hs⟩ := h.prevSibling_iff.1 hv
    exact h.lt_size p x (by simp [hs])

theorem prevSibling_of_head? (hx : (dom.children parent).head? = some x) :
    dom.prevSibling x = none := by
  obtain ⟨after, hs⟩ := List.head?_eq_some_iff.1 hx
  exact (h.siblings parent [] x after hs).1

theorem nextSibling_of_getLast? (hx : (dom.children parent).getLast? = some x) :
    dom.nextSibling x = none := by
  obtain ⟨before, hs⟩ := List.getLast?_eq_some_iff.1 hx
  exact (h.siblings parent before x [] hs).2

theorem coherent (hpos : 0 < dom.size) : dom.Coherent where
  linked_lt _ _ hl := h.lt_of_linked hl
  parent_iff := h.parent_iff
  count_eq_one _ parent hm := List.count_eq_one_of_mem (h.children_nodup parent) hm
  neighbours parent before _ _ after hs :=
    ⟨h.nextSibling_iff.2 ⟨parent, before, after, hs⟩,
      h.prevSibling_iff.2 ⟨parent, before, after, hs⟩⟩
  head _ _ hx := h.prevSibling_of_head? hx
  last _ _ hx := h.nextSibling_of_getLast? hx
  alone := h.alone
  ends := by
    have hparents : Finishes dom.parent dom.size := h.parents
    have hnexts : Finishes dom.nextSibling dom.size := h.consistent.nexts
    have hprevs : Finishes dom.prevSibling dom.size := h.consistent.prevs
    intro step hstep node
    simp only [List.mem_cons, List.not_mem_nil, or_false] at hstep
    rcases hstep with rfl | rfl | rfl
    · exact hparents.iterate_eq_none hpos
    · exact hnexts.iterate_eq_none hpos
    · exact hprevs.iterate_eq_none hpos

end Forest

-- However nodes are made and linked, a fresh document stays coherent.
theorem coherent_of_run (hrun : Run .new edits last) : last.Coherent :=
  (Built.new.run hrun).forest.coherent (Built.new.run hrun).size_pos

-- A subtree that grows while it is detached, and is linked afterwards.
def lateEdits : List Edit :=
  [.create (.element "ul" .empty), .appendNew 1 (.element "li" .empty), .appendNew 1 (.text "a"),
    .appendNew 0 (.text "b"), .append 0 1]

theorem coherent_of_run_late :
    ∃ dom, Run .new lateEdits dom ∧ dom.children 0 = [4, 1] ∧ dom.children 1 = [2, 3] ∧
      dom.Coherent := by
  have hrun : ∃ dom, Run .new lateEdits dom ∧ dom.children 0 = [4, 1] ∧
      dom.children 1 = [2, 3] := by
    refine ⟨_, .cons trivial rfl (.cons ⟨rfl, by decide, rfl⟩ rfl
      (.cons ⟨rfl, by decide, rfl⟩ rfl (.cons ⟨rfl, by decide, rfl⟩ rfl
        (.cons ⟨rfl, by decide, rfl⟩ rfl .nil)))), rfl, rfl⟩
  obtain ⟨dom, hrun, hroot, hlist⟩ := hrun
  exact ⟨dom, hrun, hroot, hlist, coherent_of_run hrun⟩

end CssQuery.Dom
