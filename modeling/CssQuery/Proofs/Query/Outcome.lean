import CssQuery.Proofs.Tree.Siblings
import CssQuery.Query.Match

namespace CssQuery

namespace Tree

variable (tree : Tree)

-- A step to the parent element or to an earlier sibling that is an element.
def Outward (a b : Node) : Prop :=
  tree.parentElement a = some b ∨ b ∈ tree.precedingElements a

-- Any number of such steps, in any order.
def Reaches : Node → Node → Prop := Relation.ReflTransGen tree.Outward

-- Whether a combinator leads from a node to a good one.
def leadsTo (good : Node → Bool) (combinator : Combinator) (node : Node) : Bool :=
  (tree.reached combinator node).any good

end Tree

-- What an outcome promises about the nodes that were not tried.
def Outcome.Tells (tree : Tree) (good : Node → Bool) (node : Node) : Outcome → Prop
  | .found => good node = true
  | .retry => good node = false
  | .retryAbove => good node = false ∧ ∀ x ∈ tree.precedingElements node, good x = false
  | .hopeless => ∀ x, tree.Reaches node x → good x = false

namespace Tree

variable {tree : Tree} {good : Node → Bool} {combinator : Combinator} {outcome final : Outcome}
  {a b c p x y z node : Node} {before after : List Node}

theorem leadsTo_eq_false :
    tree.leadsTo good combinator node = false ↔
      ∀ x ∈ tree.reached combinator node, good x = false := by
  simp [leadsTo]

theorem leadsTo_of_mem (hm : x ∈ tree.reached combinator node) (hg : good x = true) :
    tree.leadsTo good combinator node = true :=
  List.any_eq_true.2 ⟨x, hm, hg⟩

theorem Reaches.of_outward (ho : tree.Outward a b) : tree.Reaches a b := .single ho

theorem prevElement_eq_some :
    tree.prevElement a = some b ↔ ∃ rest, tree.precedingElements a = b :: rest :=
  List.head?_eq_some_iff

theorem mem_reached_nextSibling (hm : x ∈ tree.reached .nextSibling node) :
    tree.prevElement node = some x := by
  simpa [reached] using hm

namespace Consistent

variable (h : tree.Consistent)

include h

theorem parentElements : Finishes tree.parentElement tree.size := by
  apply h.parents.restrict
  intro x y hp
  exact (parentElement_eq_some.1 hp).1

theorem mem_ancestorElements : b ∈ tree.ancestorElements a ↔ Met tree.parentElement a b :=
  h.parentElements.mem_walk

theorem mem_precedingElements_iff :
    b ∈ tree.precedingElements a ↔ tree.Earlier b a ∧ tree.isElement b = true := by
  rw [mem_precedingElements, h.mem_preceding]

theorem precedingElements_trans (hb : b ∈ tree.precedingElements a)
    (hc : c ∈ tree.precedingElements b) : c ∈ tree.precedingElements a := by
  rw [h.mem_precedingElements_iff] at *
  exact ⟨hc.1.trans hb.1, hc.2⟩

theorem parentElement_congr (hb : b ∈ tree.precedingElements a) :
    tree.parentElement b = tree.parentElement a := by
  rw [parentElement, parentElement, h.parent_eq (h.mem_precedingElements_iff.1 hb).1]

-- What comes later in the list of earlier siblings comes before what comes sooner.
theorem mem_precedingElements_of_split (hs : tree.precedingElements a = before ++ y :: after)
    (hz : z ∈ after) : z ∈ tree.precedingElements y := by
  have hp : (tree.precedingElements a).Pairwise (Met tree.prevSibling) :=
    ((List.pairwise_cons.1 (walk_pairwise tree.prevSibling tree.size a)).2).filter _
  rw [hs] at hp
  have hlater := (List.pairwise_append.1 hp).2.1
  have hyz : Met tree.prevSibling y z := (List.pairwise_cons.1 hlater).1 z hz
  have hzy : tree.Earlier z y := (met_reverse h.next_iff).2 hyz
  have hm : z ∈ tree.precedingElements a := by
    rw [hs]
    exact List.mem_append_right _ (.tail _ hz)
  have hz := (h.mem_precedingElements_iff.1 hm).2
  exact h.mem_precedingElements_iff.2 ⟨hzy, hz⟩

theorem mem_precedingElements_of_cons (hs : tree.precedingElements a = y :: after)
    (hz : z ∈ after) : z ∈ tree.precedingElements y :=
  h.mem_precedingElements_of_split (hs.trans (List.nil_append _).symm) hz

omit h in
theorem met_of_ancestorElements_split (hs : tree.ancestorElements a = before ++ y :: after)
    (hz : z ∈ after) : Met tree.parentElement y z := by
  have hp : (tree.ancestorElements a).Pairwise (Met tree.parentElement) :=
    (List.pairwise_cons.1 (walk_pairwise tree.parentElement tree.size a)).2
  rw [hs] at hp
  have hlater := (List.pairwise_append.1 hp).2.1
  exact (List.pairwise_cons.1 hlater).1 z hz

omit h in
theorem reaches_of_met (hm : Met tree.parentElement a b) : tree.Reaches a b := by
  induction hm with
  | single hp => exact .of_outward (.inl hp)
  | tail _ hp ih => exact ih.tail (.inl hp)

-- Either no step leads to a parent, or all is reached by way of the parent element.
theorem reaches_cases (hr : tree.Reaches a x) :
    x = a ∨ x ∈ tree.precedingElements a ∨
      ∃ p, tree.parentElement a = some p ∧ tree.Reaches p x := by
  induction hr using Relation.ReflTransGen.head_induction_on with
  | refl => exact .inl rfl
  | @head a b hab hbx ih =>
      rcases hab with hp | hb
      · exact .inr (.inr ⟨b, hp, hbx⟩)
      · rcases ih with rfl | hx | ⟨p, hp, hpx⟩
        · exact .inr (.inl hb)
        · exact .inr (.inl (h.precedingElements_trans hb hx))
        · exact .inr (.inr ⟨p, h.parentElement_congr hb ▸ hp, hpx⟩)

theorem parentElement_of_reaches (hr : tree.Reaches a x) (hx : tree.parentElement x = some z) :
    ∃ p, tree.parentElement a = some p ∧ tree.Reaches p z := by
  rcases h.reaches_cases hr with rfl | hm | ⟨p, hp, hpx⟩
  · exact ⟨z, hx, .refl⟩
  · exact ⟨z, h.parentElement_congr hm ▸ hx, .refl⟩
  · exact ⟨p, hp, hpx.tail (.inl hx)⟩

theorem ancestorElements_of_reaches (hr : tree.Reaches a x)
    (hz : z ∈ tree.ancestorElements x) : z ∈ tree.ancestorElements a := by
  rw [h.mem_ancestorElements] at *
  induction hr using Relation.ReflTransGen.head_induction_on with
  | refl => exact hz
  | @head a b hab _ ih =>
      rcases hab with hp | hb
      · exact ih.cons hp
      · obtain ⟨p, hp, hpz⟩ := met_iff.1 ih
        exact met_iff.2 ⟨p, h.parentElement_congr hb ▸ hp, hpz⟩

-- What lies outward of a node, other than by earlier siblings, lies outward of each of them.
theorem outward_of_reaches (hy : y ∈ tree.precedingElements a) (hr : tree.Reaches a x) :
    x = a ∨ x ∈ tree.precedingElements a ∨ tree.Reaches y x := by
  rcases h.reaches_cases hr with rfl | hm | ⟨p, hp, hpx⟩
  · exact .inl rfl
  · exact .inr (.inl hm)
  · exact .inr (.inr (.head (.inl (h.parentElement_congr hy ▸ hp)) hpx))

end Consistent

end Tree

open CssQuery.Tree

variable {tree : Tree} {good : Node → Bool} {outcome final : Outcome} {node p y : Node}
  {before after : List Node}

theorem Outcome.Tells.not_good (ht : outcome.Tells tree good node) (hf : outcome ≠ .found) :
    good node = false := by
  cases outcome with
  | found => exact absurd rfl hf
  | retry => exact ht
  | retryAbove => exact ht.1
  | hopeless => exact ht node .refl

-- An outcome says whether the node itself is good, and more.
theorem Outcome.Tells.found_iff (ht : outcome.Tells tree good node) :
    outcome = .found ↔ good node = true := by
  constructor
  · rintro rfl
    exact ht
  · intro hg
    by_contra hf
    simp [ht.not_good hf] at hg

namespace Tree.Consistent

variable (h : tree.Consistent)

include h

theorem child_tells (hp : tree.parentElement node = some p) (ht : outcome.Tells tree good p)
    (hs : Combinator.settle? .child outcome = some final) :
    final.Tells tree (tree.leadsTo good .child) node := by
  have hmem : p ∈ tree.reached .child node := by simp [reached, hp]
  -- an element has one parent element, which its earlier siblings share
  have habove : good p = false → final = .retryAbove →
      final.Tells tree (tree.leadsTo good .child) node := by
    rintro hg rfl
    have hshared : ∀ x, tree.parentElement x = some p → tree.leadsTo good .child x = false := by
      intro x hx
      rw [leadsTo_eq_false]
      intro z hz
      obtain rfl : z = p := by simpa [reached, hx, eq_comm] using hz
      exact hg
    refine ⟨hshared node hp, ?_⟩
    intro x hx
    have hxp : tree.parentElement x = some p := (h.parentElement_congr hx).trans hp
    exact hshared x hxp
  cases outcome with
  | found =>
      obtain rfl := Option.some.inj hs
      exact leadsTo_of_mem hmem ht
  | retry => exact habove ht (Option.some.inj hs).symm
  | retryAbove => exact habove ht.1 (Option.some.inj hs).symm
  | hopeless =>
      obtain rfl := Option.some.inj hs
      intro x hx
      rw [leadsTo_eq_false]
      intro z hz
      have hxz : tree.parentElement x = some z := by simpa [reached] using hz
      obtain ⟨q, hq, hqz⟩ := h.parentElement_of_reaches hx hxz
      obtain rfl : p = q := Option.some.inj (hp.symm.trans hq)
      exact ht z hqz

theorem child_exhausted (hp : tree.parentElement node = none) :
    Outcome.hopeless.Tells tree (tree.leadsTo good .child) node := by
  intro x hx
  rw [leadsTo_eq_false]
  intro z hz
  have hxz : tree.parentElement x = some z := by simpa [reached] using hz
  obtain ⟨q, hq, -⟩ := h.parentElement_of_reaches hx hxz
  simp [hp] at hq

theorem descendant_tells (hl : tree.ancestorElements node = before ++ y :: after)
    (hb : ∀ x ∈ before, good x = false) (ht : outcome.Tells tree good y)
    (hs : Combinator.settle? .descendant outcome = some final) :
    final.Tells tree (tree.leadsTo good .descendant) node := by
  cases outcome with
  | found =>
      obtain rfl := Option.some.inj hs
      exact leadsTo_of_mem (x := y) (by simp [reached, hl]) ht
  | retry => simp [Combinator.settle?] at hs
  | retryAbove => simp [Combinator.settle?] at hs
  | hopeless =>
      obtain rfl := Option.some.inj hs
      intro x hx
      rw [leadsTo_eq_false]
      intro z hz
      have hm := h.ancestorElements_of_reaches hx hz
      rw [hl, List.mem_append, List.mem_cons] at hm
      rcases hm with hm | rfl | hm
      · exact hb z hm
      · exact ht z .refl
      · exact ht z (reaches_of_met (met_of_ancestorElements_split hl hm))

theorem descendant_exhausted (hb : ∀ x ∈ tree.ancestorElements node, good x = false) :
    Outcome.hopeless.Tells tree (tree.leadsTo good .descendant) node := by
  intro x hx
  rw [leadsTo_eq_false]
  intro z hz
  exact hb z (h.ancestorElements_of_reaches hx hz)

theorem nextSibling_tells (hp : tree.prevElement node = some y)
    (ht : outcome.Tells tree good y) :
    outcome.Tells tree (tree.leadsTo good .nextSibling) node := by
  obtain ⟨rest, hl⟩ := prevElement_eq_some.1 hp
  have hmem : y ∈ tree.precedingElements node := by simp [hl]
  have hnode : good y = false → tree.leadsTo good .nextSibling node = false := by
    intro hg
    rw [leadsTo_eq_false]
    intro z hz
    obtain rfl : y = z := Option.some.inj (hp.symm.trans (mem_reached_nextSibling hz))
    exact hg
  -- an earlier sibling is preceded by what comes before the nearest one
  have hrest : ∀ x ∈ tree.precedingElements node, ∀ z ∈ tree.reached .nextSibling x,
      z ∈ tree.precedingElements y := by
    intro x hx z hz
    obtain ⟨_, hxz⟩ := prevElement_eq_some.1 (mem_reached_nextSibling hz)
    have hzx : z ∈ tree.precedingElements x := by simp [hxz]
    rw [hl] at hx
    rcases List.mem_cons.1 hx with rfl | hx
    · exact hzx
    · exact h.precedingElements_trans
        (h.mem_precedingElements_of_cons hl hx) hzx
  cases outcome with
  | found => exact leadsTo_of_mem (x := y) (by simp [reached, hp]) ht
  | retry => exact hnode ht
  | retryAbove =>
      refine ⟨hnode ht.1, ?_⟩
      intro x hx
      rw [leadsTo_eq_false]
      intro z hz
      exact ht.2 z (hrest x hx z hz)
  | hopeless =>
      intro x hx
      rcases h.outward_of_reaches hmem hx with rfl | hm | hyx
      · exact hnode (ht y .refl)
      · rw [leadsTo_eq_false]
        intro z hz
        have hyz := hrest x hm z hz
        exact ht z (.of_outward (.inr hyz))
      · rw [leadsTo_eq_false]
        intro z hz
        obtain ⟨_, hxz⟩ := prevElement_eq_some.1 (mem_reached_nextSibling hz)
        have hzx : z ∈ tree.precedingElements x := by simp [hxz]
        exact ht z (hyx.tail (.inr hzx))

theorem subsequentSibling_tells (hl : tree.precedingElements node = before ++ y :: after)
    (hb : ∀ x ∈ before, good x = false) (ht : outcome.Tells tree good y)
    (hs : Combinator.settle? .subsequentSibling outcome = some final) :
    final.Tells tree (tree.leadsTo good .subsequentSibling) node := by
  have hmem : y ∈ tree.precedingElements node := by simp [hl]
  -- the candidates not tried come before the last one tried
  have hall : good y = false → (∀ x ∈ tree.precedingElements y, good x = false) →
      ∀ z ∈ tree.precedingElements node, good z = false := by
    intro hy hbefore z hz
    rw [hl, List.mem_append, List.mem_cons] at hz
    rcases hz with hz | rfl | hz
    · exact hb z hz
    · exact hy
    · exact hbefore z (h.mem_precedingElements_of_split hl hz)
  cases outcome with
  | found =>
      obtain rfl := Option.some.inj hs
      exact leadsTo_of_mem (x := y) hmem ht
  | retry => simp [Combinator.settle?] at hs
  | retryAbove =>
      obtain rfl := Option.some.inj hs
      have hnone := hall ht.1 ht.2
      refine ⟨leadsTo_eq_false.2 hnone, ?_⟩
      intro x hx
      rw [leadsTo_eq_false]
      intro z hz
      exact hnone z (h.precedingElements_trans hx hz)
  | hopeless =>
      obtain rfl := Option.some.inj hs
      have hnone := hall (ht y .refl) fun x hx => ht x (.of_outward (.inr hx))
      intro x hx
      rcases h.outward_of_reaches hmem hx with rfl | hm | hyx
      · exact leadsTo_eq_false.2 hnone
      · rw [leadsTo_eq_false]
        intro z hz
        exact hnone z (h.precedingElements_trans hm hz)
      · rw [leadsTo_eq_false]
        intro z hz
        exact ht z (hyx.tail (.inr hz))

theorem subsequentSibling_exhausted (hb : ∀ x ∈ tree.precedingElements node, good x = false) :
    Outcome.retryAbove.Tells tree (tree.leadsTo good .subsequentSibling) node := by
  refine ⟨leadsTo_eq_false.2 hb, ?_⟩
  intro x hx
  rw [leadsTo_eq_false]
  intro z hz
  exact hb z (h.precedingElements_trans hx hz)

omit h in
theorem nextSibling_exhausted (hp : tree.prevElement node = none) :
    Outcome.retryAbove.Tells tree (tree.leadsTo good .nextSibling) node := by
  constructor
  · rw [leadsTo_eq_false]
    intro z hz
    simp [mem_reached_nextSibling hz] at hp
  · intro x hx
    simp [prevElement_eq_none.1 hp] at hx

end Tree.Consistent

end CssQuery
