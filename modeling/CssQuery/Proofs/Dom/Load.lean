import CssQuery.Dom.Load
import CssQuery.Proofs.Dom.Forest

namespace CssQuery.Dom

variable {layout : Layout} {dom next : Dom} {parent : Node}

theorem size_adopt (dom : Dom) (parent : Node) (content : Content) :
    (dom.adopt parent content).2.size = dom.size + 1 := by
  rw [adopt, size_link, size_create]

theorem lt_size_adopt (dom : Dom) (parent : Node) (content : Content) :
    dom.size < (dom.adopt parent content).2.size :=
  size_adopt dom parent content ▸ Nat.lt_succ_self dom.size

-- A new node has no parent and nothing below it, so it can be linked anywhere.
theorem Built.adopt (h : Built dom) (hp : parent < dom.size) (content : Content) :
    Built (dom.adopt parent content).2 := by
  have hc := h.create content
  have hlt : parent < (dom.create content).2.size := by
    rw [size_create content]
    exact Nat.lt_succ_of_lt hp
  have hfree : (dom.create content).2.parent dom.size = none :=
    (links_create content dom.size).1.trans (parent_eq_none dom le_rfl)
  have hnone : (dom.create content).2.children dom.size = [] :=
    (links_create content dom.size).2.1.trans (children_eq_nil dom le_rfl)
  refine hc.append hfree hp.ne ?_ (append?_eq_some.2 ⟨hlt, ?_, rfl⟩)
  · rw [Bool.eq_false_iff, Ne, hc.forest.isDescendantOf_iff]
    intro hm
    obtain ⟨x, -, hx⟩ := Relation.TransGen.tail'_iff.1 hm
    simp [hc.forest.parent_iff, hnone] at hx
  · rw [size_create content]
    exact Nat.lt_succ_self _

-- A property that each new node keeps, unless it is a document.
def KeptByAdopt (P : Dom → Prop) : Prop :=
  ∀ (dom : Dom) (parent : Node) (content : Content), P dom → parent < dom.size →
    content ≠ .document → P (dom.adopt parent content).2

section Kept

variable {P : Dom → Prop}

mutual

theorem KeptByAdopt.grow {dom next : Dom} {parent : Node} (hk : KeptByAdopt P) (h : P dom)
    (hp : parent < dom.size) (path : List Nat) : (description : Description) →
      dom.grow layout parent path description = .ok next → P next ∧ dom.size ≤ next.size
  | .element tag attrs children, hg => by
      rw [Dom.grow] at hg
      split at hg
      · simp at hg
      · have ha := hk dom parent (.element tag (layout.fill dom.size attrs)) h hp nofun
        have hn := lt_size_adopt dom parent (.element tag (layout.fill dom.size attrs))
        obtain ⟨hb, hl⟩ := hk.growAll ha hn path 0 children hg
        exact ⟨hb, hn.le.trans hl⟩
  | .text text, hg => by
      obtain rfl := Except.ok.inj hg
      exact ⟨hk dom parent _ h hp nofun, size_adopt dom parent _ ▸ Nat.le_succ _⟩
  | .comment text, hg => by
      obtain rfl := Except.ok.inj hg
      exact ⟨hk dom parent _ h hp nofun, size_adopt dom parent _ ▸ Nat.le_succ _⟩

theorem KeptByAdopt.growAll {dom next : Dom} {parent : Node} (hk : KeptByAdopt P) (h : P dom)
    (hp : parent < dom.size) (path : List Nat) (place : Nat) : (descriptions : List Description) →
      dom.growAll layout parent path place descriptions = .ok next → P next ∧ dom.size ≤ next.size
  | [], hg => by
      obtain rfl := Except.ok.inj hg
      exact ⟨h, le_rfl⟩
  | first :: more, hg => by
      rw [Dom.growAll] at hg
      cases hf : dom.grow layout parent (path ++ [place]) first with
      | error error => simp [hf] at hg
      | ok grown =>
          rw [hf] at hg
          obtain ⟨hb, hl⟩ := hk.grow h hp _ first hf
          obtain ⟨hb', hl'⟩ := hk.growAll hb (hp.trans_le hl) path (place + 1) more hg
          exact ⟨hb', hl.trans hl'⟩

end

theorem KeptByAdopt.ofDescriptions {descriptions : List Description} (hk : KeptByAdopt P)
    (h : P .new) (hload : Dom.ofDescriptions layout descriptions = .ok dom) : P dom :=
  (hk.growAll h Nat.one_pos [] 0 descriptions hload).1

end Kept

theorem keptByAdopt_built : KeptByAdopt Built := fun _ _ content h hp _ => h.adopt hp content

-- Whatever is loaded is properly built.
theorem built_ofDescriptions {descriptions : List Description}
    (h : ofDescriptions layout descriptions = .ok dom) : Built dom :=
  keptByAdopt_built.ofDescriptions .new h

theorem built_load {read : String → Except Json.Error (List Description)} {text : String}
    (h : load layout read text = .ok dom) : Built dom := by
  rw [load] at h
  cases hread : read text with
  | error error => simp [hread, Except.mapError, bind, Except.bind] at h
  | ok descriptions =>
      rw [hread] at h
      exact built_ofDescriptions h

end CssQuery.Dom
