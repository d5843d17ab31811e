import CssQuery.Proofs.Dom.Edits
import CssQuery.Proofs.Dom.Load

namespace CssQuery.Dom

variable {dom next last : Dom} {node parent child : Node} {content : Content}

theorem content?_eq_none (h : dom.size ≤ node) : dom.content? node = none := by
  rw [content?, get?_eq_none dom h]
  rfl

theorem content?_create (content : Content) (node : Node) :
    (dom.create content).2.content? node =
      if node = dom.size then some content else dom.content? node := by
  simp only [content?, get?_create]
  split <;> rfl

theorem content?_link (parent child node : Node) :
    (dom.link parent child).content? node = dom.content? node := by
  simp only [content?, get?_link, Option.map_map]
  rfl

theorem content?_adopt (parent : Node) (content : Content) (node : Node) :
    (dom.adopt parent content).2.content? node =
      if node = dom.size then some content else dom.content? node := by
  rw [adopt, content?_link, content?_create]

theorem children_adopt (hp : parent < dom.size) (content : Content) (node : Node) :
    (dom.adopt parent content).2.children node =
      dom.children node ++ if node = parent then [dom.size] else [] := by
  have hlt : parent < (dom.create content).2.size := by
    rw [size_create]
    exact Nat.lt_succ_of_lt hp
  rw [adopt, children_link hlt, (links_create content node).2.1]
  split
  · rfl
  · rw [List.append_nil]

-- An attribute is set on an element, which stays one.
theorem document_setAttribute_iff {name value : String} {other : Node} :
    (dom.setAttribute node name value).2.content? other = some .document ↔
      dom.content? other = some .document := by
  rw [setAttribute]
  split
  · rfl
  · next tag attrs hc =>
      change dom.content? node = some (.element tag attrs) at hc
      simp only [content?, get?, Array.getElem?_modify]
      by_cases hn : node = other
      · rw [content?, get?, hn] at hc
        cases hr : dom.records[other]? <;> simp [hr] at hc
        simp [hn, hc]
      · rw [if_neg hn]
  · rfl

-- No node but the root is a document, and the root was not linked below any node.
structure Whole (dom : Dom) : Prop where
  root_of_document : ∀ node, dom.content? node = some .document → node = root
  parent_root : dom.parent root = none

theorem Built.content?_root (h : Built dom) : dom.content? root = some .document := by
  induction h with
  | new => rfl
  | create h content ih =>
      have hne : root ≠ _ := h.size_pos.ne
      rw [content?_create, if_neg hne, ih]
  | append _ _ _ _ happend ih =>
      obtain ⟨-, -, rfl⟩ := append?_eq_some.1 happend
      rw [content?_link, ih]
  | setAttribute _ _ _ _ ih => exact document_setAttribute_iff.2 ih
  | buildIndex _ ih => exact ih

namespace Whole

-- Whatever is linked below a node exists, and is no document.
theorem exists_content (hw : Whole dom) (h : Forest dom) (hm : child ∈ dom.children parent) :
    ∃ content, dom.content? child = some content ∧ content ≠ .document := by
  obtain ⟨record, hr⟩ := exists_get? (h.lt_size parent child hm)
  have hc : dom.content? child = some record.content := by rw [content?, hr, Option.map_some]
  refine ⟨record.content, hc, ?_⟩
  intro hd
  have hp := (h.parent_iff child parent).2 hm
  rw [hw.root_of_document child (hd ▸ hc), hw.parent_root] at hp
  simp at hp

theorem new : Whole .new := by
  refine ⟨fun node hd => ?_, rfl⟩
  cases node with
  | zero => rfl
  | succ node => simp [content?, get?, Dom.new] at hd

theorem create (h : Whole dom) (hc : content ≠ .document) : Whole (dom.create content).2 := by
  refine ⟨fun node hd => ?_, (links_create content root).1.trans h.parent_root⟩
  rw [content?_create] at hd
  split at hd
  · exact absurd (Option.some.inj hd) hc
  · exact h.root_of_document node hd

theorem link (h : Whole dom) (hlt : child < dom.size) (hc : child ≠ root) :
    Whole (dom.link parent child) := by
  refine ⟨fun node hd => h.root_of_document node ?_, ?_⟩
  · rwa [content?_link] at hd
  · rw [parent_link hlt, if_neg (Ne.symm hc)]
    exact h.parent_root

theorem buildIndex (h : Whole dom) : Whole dom.buildIndex := ⟨h.root_of_document, h.parent_root⟩

theorem adopt (h : Whole dom) (hpos : 0 < dom.size) (hc : content ≠ .document) (parent : Node) :
    Whole (dom.adopt parent content).2 := by
  refine (h.create hc).link ?_ hpos.ne'
  rw [size_create]
  exact Nat.lt_succ_self _

end Whole

theorem keptByAdopt_whole : KeptByAdopt fun dom => Whole dom ∧ 0 < dom.size := by
  intro dom parent content h _ hc
  refine ⟨h.1.adopt h.2 hc parent, ?_⟩
  rw [size_adopt]
  exact Nat.succ_pos _

-- Whatever is loaded has no document but its root.
theorem whole_ofDescriptions {layout : Layout} {descriptions : List Description}
    (h : ofDescriptions layout descriptions = .ok dom) : Whole dom :=
  (keptByAdopt_whole.ofDescriptions ⟨.new, Nat.one_pos⟩ h).1

-- An edit that makes no other document, and does not link the root.
def Edit.Ordinary : Edit → Prop
  | .create content | .appendNew _ content => content ≠ .document
  | .append _ child => child ≠ root

theorem Whole.edit {edit : Edit} (h : Whole dom) (hpos : 0 < dom.size) (ho : edit.Ordinary)
    (happly : edit.apply? dom = some next) : Whole next := by
  cases edit with
  | create content =>
      obtain rfl := Option.some.inj happly
      exact h.create ho
  | appendNew parent content =>
      obtain ⟨made, hmade, rfl⟩ := Option.map_eq_some_iff.1 happly
      obtain ⟨linked, hlinked, rfl⟩ := Option.map_eq_some_iff.1 hmade
      obtain ⟨-, -, rfl⟩ := append?_eq_some.1 hlinked
      exact h.adopt hpos ho parent
  | append parent child =>
      obtain ⟨-, hlt, rfl⟩ := append?_eq_some.1 happly
      exact h.link hlt ho

theorem Whole.run {edits : List Edit} (hb : Built dom) (h : Whole dom) (hrun : Run dom edits last)
    (ho : ∀ edit ∈ edits, edit.Ordinary) : Whole last := by
  induction hrun with
  | nil => exact h
  | cons hproper happly _ ih =>
      obtain ⟨hedit, hmore⟩ := List.forall_mem_cons.1 ho
      exact ih (hb.edit hproper happly) (h.edit hb.size_pos hedit happly) hmore

end CssQuery.Dom
