import CssQuery.Proofs.Dom.Spelling
import CssQuery.Proofs.Query.Bare

namespace CssQuery

mutual

-- The same selectors with the names of types and attributes in lower case.
def Simple.folded : Simple → Simple
  | .tag name => .tag (Text.fold name)
  | .hasAttribute selector => .hasAttribute { selector with name := Text.fold selector.name }
  | .nthChild edge formula (some selectors) =>
      .nthChild edge formula (some (foldedList selectors))
  | .noneOf selectors => .noneOf (foldedList selectors)
  | .anyOf selectors => .anyOf (foldedList selectors)
  | simple => simple

def foldedCompound : List Simple → List Simple
  | [] => []
  | simple :: more => simple.folded :: foldedCompound more

def foldedList : List Complex → List Complex
  | [] => []
  | complex :: more => complex.folded :: foldedList more

def Complex.folded : Complex → Complex
  | ⟨subject, links⟩ => ⟨foldedCompound subject, foldedLinks links⟩

def foldedLinks : List Link → List Link
  | [] => []
  | ⟨combinator, compound⟩ :: more => ⟨combinator, foldedCompound compound⟩ :: foldedLinks more

end

section Lower

open Query

mutual

theorem Simple.lower_folded : (simple : Simple) →
    lowerSimple? false simple.folded = lowerSimple? false simple
  | .tag name => by simp [Simple.folded, lowerSimple?, foldName, Text.fold_fold]
  | .hasAttribute selector => by simp [Simple.folded, lowerSimple?, foldName, Text.fold_fold]
  | .nthChild edge formula (some selectors) => by
      rw [Simple.folded, lowerSimple?, lowerSimple?, lowerList_folded selectors]
  | .noneOf selectors => by
      rw [Simple.folded, lowerSimple?, lowerSimple?, lowerList_folded selectors]
  | .anyOf selectors => by
      rw [Simple.folded, lowerSimple?, lowerSimple?, lowerList_folded selectors]
  | .universal | .never | .hasId _ | .hasClass _ | .keyword _ | .nthChild _ _ none
  | .nthOfType _ _ => rfl

theorem lowerSimples_folded : (compound : List Simple) →
    lowerSimples false (foldedCompound compound) = lowerSimples false compound
  | [] => rfl
  | simple :: more => by
      rw [foldedCompound, lowerSimples, lowerSimples, simple.lower_folded, lowerSimples_folded more]

theorem lowerList_folded : (selectors : List Complex) →
    lowerList false (foldedList selectors) = lowerList false selectors
  | [] => rfl
  | complex :: more => by
      rw [foldedList, lowerList, lowerList, complex.lower_folded, lowerList_folded more]

theorem Complex.lower_folded : (complex : Complex) →
    lowerComplex false complex.folded = lowerComplex false complex
  | ⟨subject, links⟩ => by
      rw [Complex.folded, lowerComplex, lowerComplex, lowerSimples_folded subject,
        lowerLinks_folded links]

theorem lowerLinks_folded {tests : List Test} : (links : List Link) →
    lowerLinks false tests (foldedLinks links) = lowerLinks false tests links
  | [] => rfl
  | ⟨combinator, compound⟩ :: more => by
      rw [foldedLinks, lowerLinks, lowerLinks, lowerSimples_folded compound, lowerLinks_folded more]

end

end Lower

-- Nodes of two documents that stand for each other by the place of the one in the other.
def Placed (place : Node → Node) (a b : Node) : Prop := b = place a

theorem placed_map (place : Node → Node) (nodes : List Node) :
    List.Forall₂ (Placed place) nodes (nodes.map place) :=
  List.forall₂_map_right_iff.2 (List.forall₂_same.2 fun _ _ => rfl)

namespace Dom.Respelled

variable {d e : Dom} {place : Node → Node} (h : d.Respelled e place)

include h

theorem linked (hd : d.Forest) (he : e.Forest) : d.Linked e (Placed place) where
  isElement := by
    rintro a _ rfl
    exact h.isElement a
  parent := by
    rintro a _ rfl
    rw [h.parent]
    cases d.parent a with
    | none => exact .none
    | some p => exact .some rfl
  preceding := by
    rintro a _ rfl
    rw [(h.siblings hd he a).1]
    exact placed_map place _
  following := by
    rintro a _ rfl
    rw [(h.siblings hd he a).2]
    exact placed_map place _

-- With names in any case, nodes show the same as those in their places.
theorem mirrors (hd : d.Forest) (he : e.Forest) (hapart : d.NamesApart) :
    Scene.Mirrors ⟨d.toTree, false⟩ ⟨e.toTree, false⟩ (Placed place) (NameFolded false) where
  toLike := (h.linked hd he).like false
  exactNames := rfl
  looks := by
    rintro a _ rfl _
    refine ⟨h.fold_localName a, h.attr (.inl rfl) a, hasClass_congr (h.attr (.inr rfl) a), ?_,
      (h.linked hd he).isRoot rfl, h.isEmpty a⟩
    exact fun name _ => h.foldedAttr hapart name a
  untold _ _ := ⟨rfl, rfl⟩
  asked_of_folded _ hn := .inr hn

end Dom.Respelled

namespace Query

variable {d e : Dom} {place : Node → Node}

-- Where case is ignored in names, neither the case that a selector writes them in nor the
-- one that a document does tells whether an element is matched.
theorem accepts_respelled (hd : d.Built) (he : e.Built) (h : d.Respelled e place)
    (hapart : d.NamesApart) {selectors others : SelectorList}
    (hfolded : foldedList selectors = foldedList others) {options settings : Options}
    (ho : options.exactNames = false) (hs : settings.exactNames = false)
    (source text : String) (node : Node) : ∃ answer,
      (ofSelectors source selectors options).accepts d.toTree node =
        (ofSelectors source selectors options).checked answer ∧
      (ofSelectors text others settings).accepts e.toTree (place node) =
        (ofSelectors text others settings).checked answer := by
  refine ⟨_, rfl, congrArg (ofSelectors text others settings).checked ?_⟩
  have hdc := hd.forest.consistent
  have hec := he.forest.consistent
  have hchains : lowerList false selectors = lowerList false others := by
    rw [← lowerList_folded, hfolded, lowerList_folded]
  rw [holdsAt_eq_anyFit hdc, holdsAt_eq_anyFit hec]
  simp only [ofSelectors, scene, ho, hs, ← hchains]
  exact ((h.mirrors hd.forest he.forest hapart).anyFit_eq hdc hec rfl
    (asksOnly_lowerList selectors)).symm

def quietAttributes : Attributes := .ofList [("Lang", "de"), ("title", "x")]

def loudAttributes : Attributes := .ofList [("TITLE", "x"), ("lang", "de")]

def quiet : Dom :=
  ((Dom.new.adopt Dom.root (.element "div" quietAttributes)).2.adopt 1 (.element "p" .empty)).2

-- The same document in other letters. Its paragraph was made first.
def loud : Dom :=
  ((Dom.new.create (.element "P" .empty)).2.adopt Dom.root
    (.element "DIV" loudAttributes)).2.link 2 1

def exchanged (node : Node) : Node := if node = 1 then 2 else if node = 2 then 1 else node

theorem built_quiet : quiet.Built := by
  have hload : Dom.ofDescriptions .byName
      [.element "div" quietAttributes.sort [.element "p" .empty []]] = .ok quiet := rfl
  exact Dom.built_ofDescriptions hload

theorem built_loud : loud.Built := by
  have hrun : Dom.Run .new [.create (.element "P" .empty),
      .appendNew Dom.root (.element "DIV" loudAttributes), .append 2 1] loud :=
    .cons trivial rfl (.cons ⟨rfl, by decide, rfl⟩ rfl (.cons ⟨rfl, by decide, rfl⟩ rfl .nil))
  exact Dom.Built.new.run hrun

theorem pairs_quiet : quietAttributes.pairs = [("Lang", "de"), ("title", "x")] := by
  with_unfolding_all rfl

theorem respelled_attributes : quietAttributes.Respelled loudAttributes := by
  have hloud : loudAttributes.pairs = [("TITLE", "x"), ("lang", "de")] := by
    with_unfolding_all rfl
  rw [Attributes.Respelled, pairs_quiet, hloud]
  decide

theorem respelled_quiet : quiet.Respelled loud exchanged := by
  have hsize : quiet.size = 3 := rfl
  apply Dom.Respelled.of_lt
  · intro node hnode
    have hone : 1 < node := by omega
    have htwo : 2 < node := by omega
    rw [exchanged, if_neg hone.ne', if_neg htwo.ne']
    exact hnode
  · rintro (_ | _ | _ | node) hlt
    · exact ⟨rfl, rfl, .some (.refl _)⟩
    · exact ⟨rfl, rfl, .some (.element (by decide) respelled_attributes)⟩
    · exact ⟨rfl, rfl, .some (.element (by decide) (.refl _))⟩
    · omega

theorem namesApart_quiet : quiet.NamesApart := by decide

def loudText : String := "div[LANG] > P:only-of-type"

def quietText : String := "Div[lang] > p:only-of-type"

def loudParagraph : Compound := [.tag "P", .keyword .onlyOfType]

def loudDivision : Compound := [.tag "div", .hasAttribute ⟨"LANG", .exists, .exact⟩]

def loudSelectors : SelectorList := [⟨loudParagraph, [⟨.child, loudDivision⟩]⟩]

def quietSelectors : SelectorList :=
  [⟨[.tag "p", .keyword .onlyOfType],
    [⟨.child, [.tag "Div", .hasAttribute ⟨"lang", .exists, .exact⟩]⟩]⟩]

theorem accepts_respelled_quiet :
    quiet.Built ∧ loud.Built ∧ quiet.Respelled loud exchanged ∧ quiet.NamesApart ∧
      foldedList loudSelectors = foldedList quietSelectors ∧
      (ofSelectors loudText loudSelectors {}).accepts quiet.toTree 2 = .ok true ∧
      (ofSelectors quietText quietSelectors {}).accepts loud.toTree 1 = .ok true := by
  have hfolded : foldedList loudSelectors = foldedList quietSelectors := by
    have hdiv : Text.fold "Div" = Text.fold "div" := by decide
    have hlang : Text.fold "LANG" = Text.fold "lang" := by decide
    have hp : Text.fold "P" = Text.fold "p" := by decide
    simp only [loudSelectors, loudParagraph, loudDivision, quietSelectors, foldedList,
      Complex.folded, foldedCompound, foldedLinks, Simple.folded, hdiv, hlang, hp]
  have hs : (Scene.mk quiet.toTree false).tree.Consistent := built_quiet.forest.consistent
  have honly : ((Scene.mk quiet.toTree false).keywordHolds .onlyOfType 2).alone = true := by
    refine ((Scene.position_gives hs .sameType 2).ret (·.count == 1)).alone_eq.trans ?_
    with_unfolding_all rfl
  have hparagraph : sortTests (lowerSimples false loudParagraph) =
      [.localName (foldName false "P"), .keyword .onlyOfType] :=
    sortTests_of_pairwise (by decide)
  have hdivision : sortTests (lowerSimples false loudDivision) = lowerSimples false loudDivision :=
    sortTests_of_pairwise (by decide)
  have hquiet : (ofSelectors loudText loudSelectors {}).accepts quiet.toTree 2 = .ok true := by
    rw [accepts, holdsAt_eq_anyFit hs]
    simp only [ofSelectors, scene, loudSelectors, lowerList, lowerComplex, lowerLinks, hparagraph,
      hdivision, anyFit, Chain.fits, allFit, Test.fits, honly]
    with_unfolding_all rfl
  have hcase : ({} : Options).exactNames = false := rfl
  obtain ⟨answer, hfirst, hsecond⟩ := accepts_respelled built_quiet built_loud respelled_quiet
    namesApart_quiet hfolded hcase hcase loudText quietText 2
  obtain rfl : true = answer := Except.ok.inj (hquiet.symm.trans hfirst)
  exact ⟨built_quiet, built_loud, respelled_quiet, namesApart_quiet, hfolded, hquiet, hsecond⟩

end Query

end CssQuery
