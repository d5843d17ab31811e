import CssQuery.Proofs.Query.Index

namespace CssQuery

-- The first position alone.
def Formula.one : Formula := ⟨0, 1⟩

theorem Formula.picks_one (position : Nat) : one.picks position = (position == 1) := by
  rw [picks]
  split_ifs with hle
  · have hsmall : (Int64.ofNat position).toInt = position := Int64.toInt_ofNat_of_lt (by omega)
    have hoffset : one.offset.toInt64 = 1 := by decide
    have hstep : (one.step.toInt64 == 0) = true := by decide
    simp only [hstep, hoffset, if_true]
    rw [Bool.eq_iff_iff, beq_iff_eq, beq_iff_eq, Int64.sub_eq_iff_eq_add, ← Int64.toInt_inj, hsmall]
    exact Nat.cast_eq_one
  · exact (beq_eq_false_iff_ne.2 (by omega)).symm

theorem foldName_eq_empty {exactNames : Bool} {name : String} :
    foldName exactNames name = foldName exactNames "" ↔ name = "" := by
  cases exactNames with
  | true => rfl
  | false => simp [foldName, Text.fold]

-- The list of one selector with one condition.
def Simple.lone (simple : Simple) : SelectorList := [⟨[simple], []⟩]

-- What a condition comes to on an element.
def Simple.fits (scene : Scene) (node : Node) (simple : Simple) : Bool :=
  (Query.lowerSimple? scene.exactNames simple).all (·.fits scene node)

theorem anyFit_lone (scene : Scene) (node : Node) (simple : Simple) :
    anyFit scene node (Query.lowerList scene.exactNames simple.lone) =
      (scene.tree.isElement node && simple.fits scene node) := by
  simp only [Simple.lone, Query.lowerList, Query.lowerComplex, Query.lowerLinks, anyFit, Chain.fits,
    Bool.or_false, Query.lowerSimples, Simple.fits, allFit_sortTests]
  cases Query.lowerSimple? scene.exactNames simple with
  | none => rfl
  | some test => simp [allFit]

theorem Tree.isElement_of_mem_aside {tree : Tree} {edge : Edge} {node x : Node}
    (hx : x ∈ tree.aside edge node) : tree.isElement x = true := by
  cases edge with
  | first => exact (mem_precedingElements.1 hx).2
  | last => exact (mem_followingElements.1 hx).2

-- How the conditions on the place of a node among its siblings bear on each other.
structure PlacesAgree (tree : Tree) (node : Node) (holds : Simple → Bool) : Prop where
  firstChild : holds (.keyword .firstChild) = holds (.nthChild .first .one none)
  lastChild : holds (.keyword .lastChild) = holds (.nthChild .last .one none)
  onlyChild : holds (.keyword .onlyChild) =
    (holds (.keyword .firstChild) && holds (.keyword .lastChild))
  firstOfType : holds (.keyword .firstOfType) = holds (.nthOfType .first .one)
  lastOfType : holds (.keyword .lastOfType) = holds (.nthOfType .last .one)
  onlyOfType : holds (.keyword .onlyOfType) =
    (holds (.keyword .firstOfType) && holds (.keyword .lastOfType))
  among_all : ∀ edge formula, holds (.nthChild edge formula none) =
    holds (.nthChild edge formula (some Simple.universal.lone))
  -- Elements have names. That matters to the empty name alone, as which a missing one counts.
  among_type : ∀ edge formula name, tree.localName node = some name →
    (name = "" → ∀ x, tree.isElement x = true → tree.localName x ≠ none) →
    holds (.nthOfType edge formula) =
      holds (.nthChild edge formula (some (Simple.tag name).lone))

section Counted

variable {scene : Scene} (h : scene.tree.Consistent) {node : Node}
  (he : scene.tree.isElement node = true)

-- A formula about the siblings that fit one condition counts them on its side.
theorem fits_nthChild_among (edge : Edge) (formula : Formula) (simple : Simple) :
    (Simple.nthChild edge formula (some simple.lone)).fits scene node =
      (scene.tree.isElement node && simple.fits scene node &&
        formula.picks (1 + (scene.tree.aside edge node).countP (simple.fits scene))) := by
  have hcount : (scene.tree.aside edge node).countP
      (fun x => anyFit scene x (Query.lowerList scene.exactNames simple.lone)) =
      (scene.tree.aside edge node).countP (simple.fits scene) := by
    apply List.countP_congr
    intro x hx
    rw [anyFit_lone, Tree.isElement_of_mem_aside hx, Bool.true_and]
  change (anyFit _ _ _ && formula.picks _) = _
  rw [anyFit_lone, hcount, Nat.add_comm]

-- Of its own type are the siblings that the selector of its type fits.
theorem fits_tag_eq_alike {name : String} (hn : scene.tree.localName node = some name)
    (hnamed : name = "" → ∀ x, scene.tree.isElement x = true → scene.tree.localName x ≠ none)
    {x : Node} (hx : scene.tree.isElement x = true) :
    (Simple.tag name).fits scene x = scene.tree.alike scene.exactNames .sameType node x := by
  have hfits : (Simple.tag name).fits scene x =
      (scene.tree.localName x).any (scene.namesAgree · (foldName scene.exactNames name)) := rfl
  rw [hfits, Tree.alike, typeName, typeName, hn, Option.getD_some, Bool.eq_iff_iff, beq_iff_eq]
  cases hl : scene.tree.localName x with
  | some type =>
      rw [Option.any_some, Option.getD_some, foldName_eq_iff]
      exact namesAgree_iff
  | none =>
      rw [Option.getD_none]
      refine iff_of_false Bool.false_ne_true fun hsame => hnamed ?_ x hx hl
      exact foldName_eq_empty.1 hsame.symm

include h he

theorem fits_nthChild (hu : scene.tree.elementIndex node = none) (edge : Edge)
    (formula : Formula) : (Simple.nthChild edge formula none).fits scene node =
      formula.picks (1 + (scene.tree.aside edge node).length) := by
  have ht : toldPosition? scene.tree .all node = none := hu
  have hall : scene.tree.alike scene.exactNames .all node = fun _ => true := rfl
  have hindex := Scene.indexAt_eq h ht he edge
  rw [hall, List.countP_true] at hindex
  exact congrArg formula.picks hindex

theorem fits_nthOfType (edge : Edge) (formula : Formula) :
    (Simple.nthOfType edge formula).fits scene node =
      formula.picks (1 + (scene.tree.aside edge node).countP
        (scene.tree.alike scene.exactNames .sameType node)) :=
  congrArg formula.picks (Scene.indexAt_eq h rfl he edge)

theorem fits_onlyOfType : (Simple.keyword .onlyOfType).fits scene node =
    ((Simple.nthOfType .first .one).fits scene node &&
      (Simple.nthOfType .last .one).fits scene node) := by
  have hgives := (Scene.position_gives h .sameType node).ret (·.count == 1)
  rw [fits_nthOfType h he, fits_nthOfType h he, Formula.picks_one, Formula.picks_one]
  refine hgives.alone_eq.trans ?_
  rw [Scene.place_of_untold rfl, h.countedPlace_eq he, Bool.eq_iff_iff, Bool.and_eq_true_iff,
    beq_iff_eq, beq_iff_eq, beq_iff_eq]
  simp only [Tree.aside]
  omega

-- The first of all siblings has none to meet on its side.
theorem fits_nthChild_one (hu : scene.tree.elementIndex node = none) (edge : Edge) :
    (Simple.nthChild edge .one none).fits scene node =
      (scene.tree.aside edge node).head?.isNone := by
  rw [fits_nthChild h he hu, Formula.picks_one]
  cases scene.tree.aside edge node <;> simp

omit he in
theorem fits_nthOfType_one (edge : Edge) : (Simple.nthOfType edge .one).fits scene node =
    (do return (← scene.indexFrom edge .sameType node) == 1).alone := by
  rw [((Scene.indexFrom_gives h edge .sameType node).ret (· == 1)).alone_eq]
  exact Formula.picks_one _

theorem fits_among_all (hu : scene.tree.elementIndex node = none) (edge : Edge)
    (formula : Formula) : (Simple.nthChild edge formula none).fits scene node =
      (Simple.nthChild edge formula (some Simple.universal.lone)).fits scene node := by
  have hall : Simple.universal.fits scene = fun _ => true := rfl
  rw [fits_nthChild h he hu, fits_nthChild_among, he, hall, List.countP_true]
  rfl

theorem fits_among_type {name : String} (hn : scene.tree.localName node = some name)
    (hnamed : name = "" → ∀ x, scene.tree.isElement x = true → scene.tree.localName x ≠ none)
    (edge : Edge) (formula : Formula) : (Simple.nthOfType edge formula).fits scene node =
      (Simple.nthChild edge formula (some (Simple.tag name).lone)).fits scene node := by
  have hcount : (scene.tree.aside edge node).countP ((Simple.tag name).fits scene) =
      (scene.tree.aside edge node).countP (scene.tree.alike scene.exactNames .sameType node) := by
    apply List.countP_congr
    intro x hx
    rw [fits_tag_eq_alike hn hnamed (Tree.isElement_of_mem_aside hx)]
  have hself : (Simple.tag name).fits scene node = true := by
    rw [fits_tag_eq_alike hn hnamed he, Tree.alike, beq_self_eq_true]
  rw [fits_nthOfType h he, fits_nthChild_among, hcount, he, hself]
  rfl

theorem fits_placesAgree (hu : scene.tree.elementIndex node = none) :
    PlacesAgree scene.tree node (Simple.fits scene node) where
  firstChild := (fits_nthChild_one h he hu .first).symm
  lastChild := (fits_nthChild_one h he hu .last).symm
  onlyChild := rfl
  firstOfType := (fits_nthOfType_one h .first).symm
  lastOfType := (fits_nthOfType_one h .last).symm
  onlyOfType := by
    rw [fits_onlyOfType h he, fits_nthOfType_one h, fits_nthOfType_one h]
    rfl
  among_all := fits_among_all h he hu
  among_type edge formula _ hn hnamed := fits_among_type h he hn hnamed edge formula

end Counted

namespace Query

variable {tree : Tree} {node : Node}

theorem accepts_lone (h : tree.Consistent) (source : String) (simple : Simple)
    (options : Options) : (ofSelectors source simple.lone options).accepts tree node =
      .ok (tree.isElement node && simple.fits ⟨tree, options.exactNames⟩ node) := by
  rw [accepts, holdsAt_eq_anyFit h]
  exact congrArg Except.ok (anyFit_lone ⟨tree, options.exactNames⟩ node simple)

-- The three ways to tell the place of a node agree: links to siblings, counted positions,
-- and siblings tried one by one.
theorem accepts_placesAgree (h : tree.Consistent) (hu : tree.elementIndex node = none)
    (source : String) (options : Options) : ∃ holds : Simple → Bool,
      (∀ simple, (ofSelectors source simple.lone options).accepts tree node = .ok (holds simple)) ∧
      PlacesAgree tree node holds := by
  refine ⟨_, fun simple => accepts_lone h source simple options, ?_⟩
  let scene : Scene := ⟨tree, options.exactNames⟩
  have hs : scene.tree.Consistent := h
  cases he : tree.isElement node with
  | true => exact fits_placesAgree hs he hu
  | false =>
      exact ⟨rfl, rfl, rfl, rfl, rfl, rfl, fun _ _ => rfl, fun _ _ _ _ _ => rfl⟩

-- A list whose items are written in either case, with a text between them.
def listed : Dom :=
  ((((Dom.new.adopt Dom.root (.element "ul" .empty)).2.adopt 1 (.element "li" .empty)).2.adopt 1
    (.text "and")).2.adopt 1 (.element "LI" .empty)).2.adopt 1 (.element "p" .empty) |>.2

theorem built_listed : listed.Built := by
  have hload : Dom.ofDescriptions .byName [.element "ul" .empty
      [.element "li" .empty [], .text "and", .element "LI" .empty [], .element "p" .empty []]] =
      .ok listed := rfl
  exact Dom.built_ofDescriptions hload

theorem accepts_placesAgree_listed : listed.toTree.Consistent ∧
    listed.toTree.elementIndex 4 = none ∧ ∃ holds : Simple → Bool,
      (∀ simple, (ofSelectors "" simple.lone {}).accepts listed.toTree 4 = .ok (holds simple)) ∧
      PlacesAgree listed.toTree 4 holds ∧
      holds (.nthChild .last .one (some (Simple.tag "LI").lone)) = true ∧
      holds (.keyword .firstOfType) = false := by
  have h := built_listed.forest.consistent
  have hu : listed.toTree.elementIndex 4 = none := rfl
  obtain ⟨holds, hholds, hagree⟩ := accepts_placesAgree h hu "" {}
  have hlast : (ofSelectors "" (Simple.nthChild .last .one
      (some (Simple.tag "LI").lone)).lone {}).accepts listed.toTree 4 = .ok true := by
    with_unfolding_all rfl
  have hfirst : (ofSelectors "" (Simple.nthChild .first .one
      (some (Simple.tag "LI").lone)).lone {}).accepts listed.toTree 4 = .ok false := by
    with_unfolding_all rfl
  refine ⟨h, hu, holds, hholds, hagree, ?_, ?_⟩
  · exact Except.ok.inj ((hholds _).symm.trans hlast)
  · rw [hagree.firstOfType, hagree.among_type .first .one "LI" rfl (by simp)]
    exact Except.ok.inj ((hholds _).symm.trans hfirst)

end Query

end CssQuery
