import CssQuery.Proofs.Query.Keywords

namespace CssQuery

open Query

variable {dom : Dom} {exactNames : Bool}

theorem allFit_eq_all (scene : Scene) (node : Node) (tests : List Test) :
    allFit scene node tests = tests.all (·.fits scene node) := by
  induction tests with
  | nil => rfl
  | cons test more ih => rw [allFit, List.all_cons, ih]

-- The order in which tests run does not matter to what they come to.
theorem allFit_sortTests (scene : Scene) (node : Node) (tests : List Test) :
    allFit scene node (sortTests tests) = allFit scene node tests := by
  rw [allFit_eq_all, allFit_eq_all]
  exact (List.mergeSort_perm tests _).all_eq

theorem Query.sortTests_of_pairwise {tests : List Test} (h : tests.Pairwise (·.rank ≤ ·.rank)) :
    sortTests tests = tests :=
  List.mergeSort_of_pairwise (h.imp decide_eq_true)

mutual

theorem Simple.lower_fits (h : dom.Forest) {node : Node} (he : dom.isElement node = true) :
    (simple : Simple) →
    ((lowerSimple? exactNames simple).all (·.fits (dom.scene exactNames) node) = true ↔
      simple.Holds dom exactNames node)
  | .universal => iff_of_true rfl trivial
  | .never => iff_of_false Bool.false_ne_true id
  | .tag name => by
      simp only [lowerSimple?, Option.all_some, Test.fits, Option.any_eq_true]
      exact exists_congr fun type => and_congr_right fun _ => namesAgree_iff
  | .hasId id => by
      simp only [lowerSimple?, Option.all_some, Test.fits, beq_iff_eq]
      exact attr_iff
  | .hasClass name => by
      simp only [lowerSimple?, Option.all_some, Test.fits]
      exact hasClass_iff
  | .hasAttribute selector => by
      simp only [lowerSimple?, Option.all_some, Test.fits, Option.any_eq_true, attr_foldName,
        AttributeTest.holds_iff]
      rfl
  | .keyword keyword => by
      simp only [lowerSimple?, Option.all_some, Test.fits]
      exact keyword_iff h he keyword
  | .nthChild edge formula none => by
      simp only [lowerSimple?, Option.all_some, Test.fits, indexAt_all h he]
      exact Formula.picks_iff_selects
  | .nthChild edge formula (some selectors) => by
      simp only [lowerSimple?, Option.all_some, Test.fits, Bool.and_eq_true_iff]
      rw [listHolds_lower h node selectors, Nat.add_comm,
        h.countP_aside fun x _ => listHolds_lower h x selectors]
      exact and_congr_right' Formula.picks_iff_selects
  | .nthOfType edge formula => by
      simp only [lowerSimple?, Option.all_some, Test.fits, indexAt_sameType h he]
      exact Formula.picks_iff_selects
  | .noneOf selectors => by
      simp only [lowerSimple?, Option.all_some, Test.fits, Bool.not_eq_true', ← Bool.not_eq_true]
      exact not_congr (listHolds_lower h node selectors)
  | .anyOf selectors => by
      simp only [lowerSimple?, Option.all_some, Test.fits]
      exact listHolds_lower h node selectors

theorem compoundHolds_lower (h : dom.Forest) {node : Node} (he : dom.isElement node = true) :
    (compound : List Simple) →
    (allFit (dom.scene exactNames) node (lowerSimples exactNames compound) = true ↔
      compoundHolds dom exactNames node compound)
  | [] => iff_of_true rfl trivial
  | simple :: more => by
      have hs := Simple.lower_fits h he simple
      have hm := compoundHolds_lower h he more
      simp only [lowerSimples, compoundHolds]
      cases hl : lowerSimple? exactNames simple with
      | none =>
          rw [hl] at hs
          exact hm.trans (and_iff_right (hs.1 rfl)).symm
      | some test =>
          rw [hl] at hs
          exact Bool.and_eq_true_iff.trans (and_congr hs hm)

theorem listHolds_lower (h : dom.Forest) (node : Node) : (selectors : List Complex) →
    (anyFit (dom.scene exactNames) node (lowerList exactNames selectors) = true ↔
      listHolds dom exactNames node selectors)
  | [] => iff_of_false Bool.false_ne_true id
  | complex :: more => by
      have hc := Complex.lower_fits h node complex
      have hm := listHolds_lower h node more
      exact Bool.or_eq_true_iff.trans (or_congr hc hm)

theorem Complex.lower_fits (h : dom.Forest) (node : Node) : (complex : Complex) →
    ((lowerComplex exactNames complex).fits (dom.scene exactNames) node = true ↔
      complex.Holds dom exactNames node)
  | ⟨subject, links⟩ => by
      rw [lowerComplex, linksHold_lower h node _ links, allFit_sortTests]
      exact and_congr_right fun he => and_congr_left' (compoundHolds_lower h he subject)

theorem linksHold_lower (h : dom.Forest) (node : Node) (tests : List Test) : (links : List Link) →
    ((lowerLinks exactNames tests links).fits (dom.scene exactNames) node = true ↔
      dom.isElement node = true ∧ allFit (dom.scene exactNames) node tests = true ∧
        linksHold dom exactNames node links)
  | [] => by
      simp only [lowerLinks, Chain.fits, Bool.and_eq_true_iff, linksHold, and_true]
      rfl
  | ⟨combinator, compound⟩ :: more => by
      simp only [lowerLinks, Chain.fits, Bool.and_eq_true_iff, linksHold, List.any_eq_true,
        and_assoc]
      refine and_congr_right fun _ => and_congr_right fun _ => exists_congr fun outer => ?_
      rw [linksHold_lower h outer _ more, allFit_sortTests]
      refine and_congr h.mem_reached (and_congr_right fun he => and_congr_left' ?_)
      exact compoundHolds_lower h he compound

end

end CssQuery
