import CssQuery.Proofs.Dom.Load
import CssQuery.Proofs.Query.Lowering
import CssQuery.Query.Select

namespace CssQuery

theorem Reader.selectorList_ne_nil {nested : ListReader} {finish : Nat} {ts : List Token}
    {read : Reading Token SelectorList ts.length}
    (h : selectorList nested finish ts = .ok read) : read.value ≠ [] := by
  rw [selectorList] at h
  cases hc : complex nested finish (skipBlanks ts) with
  | error error => simp [hc] at h
  | ok first =>
      simp only [hc] at h
      split at h
      · obtain rfl := Except.ok.inj h
        simp
      · split at h
        · simp at h
        · obtain rfl := Except.ok.inj h
          simp

-- What a text writes has at least one member.
theorem SelectorList.ofText_ne_nil {text : String} {limit : Nat} {selectors : SelectorList}
    (h : SelectorList.ofText text limit = .ok selectors) : selectors ≠ [] := by
  simp only [SelectorList.ofText, bind, Except.bind] at h
  cases hs : Token.scan text with
  | error error => simp [hs] at h
  | ok tokens =>
      simp only [hs] at h
      split at h
      · simp [throw, throwThe, MonadExceptOf.throw] at h
      · split at h
        · simp at h
        · next read hl =>
            split at h
            · obtain rfl := Except.ok.inj h
              exact Reader.selectorList_ne_nil hl
            · simp [throw, throwThe, MonadExceptOf.throw] at h

namespace Query

variable {dom : Dom} {node : Node}

theorem lowerList_isEmpty (exactNames : Bool) (selectors : SelectorList) :
    (lowerList exactNames selectors).isEmpty = selectors.isEmpty := by
  cases selectors <;> rfl

-- Matching finds what the selectors say, wherever the answers come from.
theorem holdsAt_iff (h : dom.Forest) (source : String) (selectors : SelectorList)
    (options : Options) :
    (ofSelectors source selectors options).holdsAt dom.toTree node = true ↔
      listHolds dom options.exactNames node selectors := by
  have hg : (dom.scene options.exactNames).Gives _ _ :=
    anyHolds_gives h.consistent node (lowerList options.exactNames selectors)
  rw [← listHolds_lower h, ← hg.alone_eq]
  rfl

-- A query made from a text answers for every node, and says of the node what the
-- selectors of the text say.
theorem accepts_iff_listHolds (hdom : dom.Built) {text : String} {limit : Nat}
    {selectors : SelectorList} (htext : SelectorList.ofText text limit = .ok selectors)
    (source : String) (options : Options) (node : Node) :
    ∃ answer, (ofSelectors source selectors options).accepts dom.toTree node = .ok answer ∧
      (answer = true ↔ listHolds dom options.exactNames node selectors) := by
  refine ⟨_, ?_, holdsAt_iff hdom.forest source selectors options⟩
  have hne : (lowerList options.exactNames selectors).isEmpty = false := by
    rw [lowerList_isEmpty, List.isEmpty_eq_false_iff]
    exact SelectorList.ofText_ne_nil htext
  simp [accepts, checked, ofSelectors, hne]

-- A division that holds a paragraph.
def division : Dom :=
  ((Dom.new.adopt Dom.root (.element "div" .empty)).2.adopt 1 (.element "p" .empty)).2

theorem built_division : division.Built :=
  (Dom.Built.new.adopt (by decide) _).adopt (by rw [Dom.size_adopt]; decide) _

-- The same with a second paragraph, which has a language.
def bilingual : Dom :=
  (division.adopt 1 (.element "p" (.ofList [("class", "x"), ("Lang", "de-AT")]))).2

theorem built_bilingual : bilingual.Built := built_division.adopt (by decide) _

def germanText : String := "div>p[LANG|=de]:not(.y):nth-child(2 of p)"

def germanParagraph : Compound :=
  [.tag "p", .hasAttribute ⟨"LANG", .compare .dashMatch "de", .exact⟩,
    .noneOf [⟨[.hasClass "y"], []⟩], .nthChild .first ⟨0, 2⟩ (some [⟨[.tag "p"], []⟩])]

def german : SelectorList := [⟨germanParagraph, [⟨.child, [.tag "div"]⟩]⟩]

theorem accepts_iff_listHolds_german :
    bilingual.Built ∧ SelectorList.ofText germanText 32 = .ok german ∧
      (ofSelectors germanText german {}).accepts bilingual.toTree 3 = .ok true ∧
      listHolds bilingual false 3 german ∧
      (ofSelectors germanText german {}).accepts bilingual.toTree 2 = .ok false ∧
      ¬ listHolds bilingual false 2 german := by
  have htext : SelectorList.ofText germanText 32 = .ok german := by with_unfolding_all rfl
  have hsort : sortTests (lowerSimples false germanParagraph) =
      lowerSimples false germanParagraph :=
    sortTests_of_pairwise (by decide)
  have htrue : (ofSelectors germanText german {}).accepts bilingual.toTree 3 = .ok true := by
    simp only [ofSelectors, german, lowerList, lowerComplex, hsort]
    with_unfolding_all rfl
  have hfalse : (ofSelectors germanText german {}).accepts bilingual.toTree 2 = .ok false := by
    simp only [ofSelectors, german, lowerList, lowerComplex, hsort]
    with_unfolding_all rfl
  obtain ⟨answer, hanswer, hholds⟩ := accepts_iff_listHolds built_bilingual htext germanText {} 3
  obtain ⟨other, hother, hfails⟩ := accepts_iff_listHolds built_bilingual htext germanText {} 2
  obtain rfl : true = answer := Except.ok.inj (htrue.symm.trans hanswer)
  obtain rfl : false = other := Except.ok.inj (hfalse.symm.trans hother)
  exact ⟨built_bilingual, htext, htrue, hholds.1 rfl, hfalse,
    fun hlist => Bool.false_ne_true (hfails.2 hlist)⟩

end Query

end CssQuery
