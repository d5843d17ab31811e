import CssQuery.Proofs.Dom.Attributes
import CssQuery.Proofs.Dom.Relations
import CssQuery.Query.Lower

namespace CssQuery

namespace Text

-- What trimming takes away are blanks, so nothing else is all trimmed.
theorem trim_isEmpty {cs : List Char} :
    (trim cs).isEmpty = true ↔ ∀ c ∈ cs, isBlank c = true := by
  rw [List.isEmpty_iff, trim, trimEnd, List.reverse_eq_nil_iff, trimStart, trimStart,
    List.dropWhile_eq_nil_iff]
  simp only [List.mem_reverse]
  constructor
  · intro hb c hc
    rw [← List.takeWhile_append_dropWhile (p := isBlank) (l := cs)] at hc
    rcases List.mem_append.1 hc with hc | hc
    · exact List.mem_takeWhile_imp hc
    · exact hb c hc
  · exact fun hb c hc => hb c ((List.dropWhile_suffix _).subset hc)

theorem contains_map_ofList (words : List (List Char)) (name : String) :
    (words.map String.ofList).contains name = words.contains name.toList := by
  rw [Bool.eq_iff_iff, List.contains_iff_mem, List.contains_iff_mem, List.mem_map]
  constructor
  · rintro ⟨word, hm, rfl⟩
    rwa [String.toList_ofList]
  · exact fun hm => ⟨name.toList, hm, String.ofList_toList⟩

end Text

-- The view of a document that a query is run on.
abbrev Dom.scene (dom : Dom) (exactNames : Bool) : Scene := ⟨dom.toTree, exactNames⟩

variable {dom : Dom} {exactNames : Bool} {node x : Node} {name type value : String}

theorem namesAgree_iff {scene : Scene} :
    scene.namesAgree type (foldName scene.exactNames name) = true ↔
      SameName scene.exactNames type name := by
  obtain ⟨tree, exactNames⟩ := scene
  cases exactNames with
  | true => simp [Scene.namesAgree, foldName, SameName]
  | false => simp [Scene.namesAgree, foldName, SameName, Text.sameFolded_iff, Text.fold_fold]

theorem foldName_eq_iff {a b : String} :
    foldName exactNames a = foldName exactNames b ↔ SameName exactNames a b := by
  cases exactNames <;> rfl

theorem Attributes.holds_iff {attrs : Attributes} : (if exactNames then attrs.get? name
      else attrs.getFolded? (Text.fold name)) = some value ↔ attrs.Holds exactNames name value := by
  cases exactNames with
  | true => exact Attributes.get?_eq_some_iff
  | false =>
      refine Attributes.getFolded?_eq_some_iff.trans ?_
      simp only [Text.fold_fold]
      rfl

theorem Attributes.exists_holds_iff {attrs : Attributes} :
    (∃ value, attrs.Holds exactNames name value) ↔
      ∃ pair ∈ attrs.pairs, SameName exactNames pair.1 name := by
  simp only [← Attributes.holds_iff]
  cases exactNames with
  | true =>
      simp only [if_true, Attributes.get?_eq_some_iff]
      constructor
      · rintro ⟨value, hm⟩
        exact ⟨_, hm, rfl⟩
      · rintro ⟨pair, hm, rfl⟩
        exact ⟨pair.2, hm⟩
  | false =>
      constructor
      · rintro ⟨value, hv⟩
        obtain ⟨other, hm, hfold⟩ := Attributes.exists_of_getFolded? hv
        exact ⟨_, hm, hfold.trans (Text.fold_fold name)⟩
      · rintro ⟨pair, hm, hsame⟩
        exact Option.ne_none_iff_exists'.1
          (Attributes.getFolded?_ne_none hm (hsame.trans (Text.fold_fold name).symm))

-- What is looked up under a folded name is the value of the attribute.
theorem attr_foldName (name : String) :
    (dom.scene exactNames).attr node (foldName exactNames name) = some value ↔
      dom.AttributeIs exactNames name node value := by
  have hlookup : (dom.scene exactNames).attr node (foldName exactNames name) =
      (dom.element? node).bind fun element => if exactNames then element.2.get? name
        else element.2.getFolded? (Text.fold name) := by
    cases exactNames <;> rfl
  simp only [hlookup, Option.bind_eq_some_iff, Attributes.holds_iff, Prod.exists]
  rfl

-- Ids and classes are found under their exact names.
theorem attr_iff : dom.attr node name = some value ↔ dom.AttributeIs true name node value :=
  show (dom.scene true).attr node (foldName true name) = some value ↔ _ from attr_foldName name

theorem hasClass_iff : dom.hasClass node name = true ↔
    name ≠ "" ∧ ∃ list, dom.AttributeIs true "class" node list ∧
      IsWord name.toList list.toList := by
  simp only [Dom.hasClass, Dom.classes, ← attr_iff]
  cases dom.attr node "class" with
  | none => simp
  | some list =>
      simp only [Text.contains_map_ofList, List.contains_iff_mem, mem_words_iff, Option.some_inj,
        exists_eq_left']
      exact and_congr_left' String.toList_eq_nil_iff.not

theorem attr_of_folded (name : String) (hn : Text.fold name = name) :
    (dom.scene exactNames).attr node name = some value ↔
      dom.AttributeIs exactNames name node value := by
  have hname : foldName exactNames name = name := by
    cases exactNames with
    | true => rfl
    | false => exact hn
  rw [← attr_foldName, hname]

theorem hasAttr_iff (hn : Text.fold name = name) :
    (dom.scene exactNames).hasAttr node name = true ↔ dom.HasAttribute exactNames name node := by
  rw [Scene.hasAttr, Option.isSome_iff_exists]
  simp only [attr_of_folded name hn, Dom.HasAttribute, ← Attributes.exists_holds_iff]
  constructor
  · rintro ⟨value, tag, attrs, he, hv⟩
    exact ⟨tag, attrs, he, value, hv⟩
  · rintro ⟨tag, attrs, he, value, hv⟩
    exact ⟨value, tag, attrs, he, hv⟩

theorem not_hasAttr_iff (hn : Text.fold name = name) :
    (!(dom.scene exactNames).hasAttr node name) = true ↔
      ¬ dom.HasAttribute exactNames name node := by
  rw [← hasAttr_iff hn, Bool.not_eq_true', Bool.not_eq_true]

theorem isOneOf_iff {names : List String} :
    (dom.scene exactNames).isOneOf names node = true ↔ dom.HasType names node := by
  simp only [Scene.isOneOf, Option.any_eq_true, List.any_eq_true, Text.sameFolded_iff]
  rfl

theorem exists_localName (he : dom.isElement node = true) :
    ∃ type, dom.localName node = some type := by
  obtain ⟨element, hel⟩ := Option.isSome_iff_exists.1 he
  exact ⟨element.1, by rw [Dom.localName, hel, Option.map_some]⟩

theorem alike_iff (hx : dom.isElement x = true) (he : dom.isElement node = true) :
    dom.toTree.alike exactNames .sameType node x = true ↔ dom.SameType exactNames x node := by
  obtain ⟨s, hs⟩ := exists_localName hx
  obtain ⟨t, ht⟩ := exists_localName he
  simp only [Tree.alike, typeName, Dom.toTree, hs, ht, beq_iff_eq, Option.getD_some,
    foldName_eq_iff, Dom.SameType]
  simp

theorem isEmpty_iff : dom.isEmpty node = true ↔ ∀ child ∈ dom.children node, ∃ content,
    dom.content? child = some content ∧ content.Blank := by
  have hblank : ∀ content, Dom.isBlankContent content = true ↔ content.Blank := by
    intro content
    cases content with
    | text text => exact Text.trim_isEmpty
    | comment => exact iff_of_true rfl trivial
    | document | element => exact iff_of_false Bool.false_ne_true id
  simp only [Dom.isEmpty, List.all_eq_true, Option.any_eq_true, hblank]

section Positions

variable (h : dom.Forest) (he : dom.isElement node = true)

include h he

theorem indexAt_all (edge : Edge) :
    (dom.scene exactNames).indexAt edge .all node =
      1 + {x | dom.ElementAside edge node x}.ncard := by
  rw [Scene.indexAt_eq h.consistent rfl he, h.countP_aside (P := fun _ => True) fun x _ => ?_]
  · simp
  · simp [Tree.alike]

theorem indexAt_sameType (edge : Edge) :
    (dom.scene exactNames).indexAt edge .sameType node =
      1 + {x | dom.ElementAside edge node x ∧ dom.SameType exactNames x node}.ncard := by
  rw [Scene.indexAt_eq h.consistent rfl he, h.countP_aside fun x hx => alike_iff hx he]

theorem countP_alike_eq_zero (exactNames : Bool) (edge : Edge) :
    (dom.toTree.aside edge node).countP (dom.toTree.alike exactNames .sameType node) = 0 ↔
      ¬ ∃ x, dom.ElementAside edge node x ∧ dom.SameType exactNames x node := by
  rw [List.countP_eq_zero]
  simp only [h.mem_aside, not_exists, not_and]
  refine forall_congr' fun x => forall_congr' fun hx => not_congr (alike_iff ?_ he)
  cases edge <;> exact hx.1

omit he in
theorem prevElement_isNone : (dom.toTree.prevElement node).isNone = true ↔
    ¬ ∃ x, dom.ElementBefore node x := by
  rw [Option.isNone_iff_eq_none, Tree.prevElement_eq_none, List.eq_nil_iff_forall_not_mem]
  simp only [h.mem_precedingElements, not_exists]

omit he in
theorem nextElement_isNone : (dom.toTree.nextElement node).isNone = true ↔
    ¬ ∃ x, dom.ElementAfter node x := by
  rw [Option.isNone_iff_eq_none, Tree.nextElement_eq_none, List.eq_nil_iff_forall_not_mem]
  simp only [h.mem_followingElements, not_exists]

theorem indexFrom_eq_one (edge : Edge) :
    (do return (← (dom.scene exactNames).indexFrom edge .sameType node) == 1).alone = true ↔
      ¬ ∃ x, dom.ElementAside edge node x ∧ dom.SameType exactNames x node := by
  rw [((Scene.indexFrom_gives h.consistent edge .sameType node).ret (· == 1)).alone_eq,
    ← countP_alike_eq_zero h he, beq_iff_eq, Scene.indexAt_eq h.consistent rfl he]
  exact Nat.add_eq_left

theorem count_eq_one :
    (do return (← (dom.scene exactNames).position .sameType node).count == 1).alone = true ↔
      ¬ ∃ x, (dom.ElementBefore node x ∨ dom.ElementAfter node x) ∧
        dom.SameType exactNames x node := by
  rw [((Scene.position_gives h.consistent .sameType node).ret (·.count == 1)).alone_eq,
    Scene.place_of_untold rfl, h.consistent.countedPlace_eq he]
  have hfirst := countP_alike_eq_zero h he exactNames .first
  have hlast := countP_alike_eq_zero h he exactNames .last
  simp only [or_and_right, exists_or, not_or]
  refine Iff.trans ?_ (and_congr hfirst hlast)
  simp only [beq_iff_eq, Tree.aside]
  omega

-- A keyword holds where its matching finds that it does.
theorem keyword_iff (keyword : Keyword) :
    ((dom.scene exactNames).keywordHolds keyword node).alone = true ↔
      keyword.Holds dom exactNames node := by
  cases keyword with
  | root =>
      refine Bool.and_eq_true_iff.trans ?_
      rw [and_iff_right he, Bool.not_eq_true', ← Bool.not_eq_true, Option.any_eq_true]
      rfl
  | empty => exact isEmpty_iff
  | firstChild => exact prevElement_isNone h
  | lastChild => exact nextElement_isNone h
  | onlyChild =>
      refine Bool.and_eq_true_iff.trans ?_
      rw [prevElement_isNone h, nextElement_isNone h]
      simp only [Keyword.Holds, exists_or, not_or]
  | firstOfType => exact indexFrom_eq_one h he .first
  | lastOfType => exact indexFrom_eq_one h he .last
  | onlyOfType => exact count_eq_one h he
  | link => exact Bool.and_eq_true_iff.trans (and_congr isOneOf_iff (hasAttr_iff rfl))
  | checked =>
      refine Bool.or_eq_true_iff.trans (or_congr ?_ ?_)
      · refine Bool.and_eq_true_iff.trans ?_
        rw [Scene.isBox, Bool.and_eq_true_iff, isOneOf_iff, hasAttr_iff rfl, and_assoc,
          and_comm (a := _ = true)]
        simp only [Option.any_eq_true, attr_of_folded "type" rfl, Bool.or_eq_true_iff,
          Text.sameFolded_iff]
        rfl
      · exact Bool.and_eq_true_iff.trans (and_congr isOneOf_iff (hasAttr_iff rfl))
  | disabled => exact Bool.and_eq_true_iff.trans (and_congr isOneOf_iff (hasAttr_iff rfl))
  | enabled => exact Bool.and_eq_true_iff.trans (and_congr isOneOf_iff (not_hasAttr_iff rfl))
  | required => exact Bool.and_eq_true_iff.trans (and_congr isOneOf_iff (hasAttr_iff rfl))
  | optional => exact Bool.and_eq_true_iff.trans (and_congr isOneOf_iff (not_hasAttr_iff rfl))

end Positions

end CssQuery
