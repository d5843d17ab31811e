import CssQuery.Proofs.Selector.Formula
import CssQuery.Proofs.Selector.Grammar
import CssQuery.Proofs.Token.Lexemes

namespace CssQuery

-- What selectors have in common that come from a text.

structure AttributeSelector.WellFormed (selector : AttributeSelector) : Prop where
  name : selector.name ≠ ""
  exact_of_exists : selector.test = .exists → selector.letterCase = .exact

def Simple.IsType : Simple → Prop
  | .tag _ | .universal => True
  | _ => False

section Nested

-- What lists in parentheses have to be like.
variable (Nested : SelectorList → Prop)

def Simple.WellFormed : Simple → Prop
  | .tag name | .hasClass name | .hasId name => name ≠ ""
  | .universal | .keyword _ | .never => True
  | .hasAttribute selector => selector.WellFormed
  | .nthChild _ formula none => formula.WellFormed
  | .nthChild _ formula (some selectors) => formula.WellFormed ∧ Nested selectors
  | .nthOfType _ formula => formula.WellFormed
  | .noneOf selectors | .anyOf selectors => Nested selectors

structure Compound.WellFormed (compound : Compound) : Prop where
  ne_nil : compound ≠ []
  simples : ∀ simple ∈ compound, simple.WellFormed Nested
  types : ∀ simple ∈ compound.tail, ¬ simple.IsType

structure Complex.WellFormed (complex : Complex) : Prop where
  subject : Compound.WellFormed Nested complex.subject
  links : ∀ link ∈ complex.links, Compound.WellFormed Nested link.compound

structure ListWellFormed (selectors : SelectorList) : Prop where
  ne_nil : selectors ≠ []
  members : ∀ complex ∈ selectors, complex.WellFormed Nested

end Nested

-- A list in parentheses, where so many levels of lists are allowed.
def NestedWellFormed : Nat → SelectorList → Prop
  | 0 => fun _ => False
  | room + 1 => ListWellFormed (NestedWellFormed room)

-- A whole list, with lists nested at most so deep.
def SelectorList.WellFormed (limit : Nat) : SelectorList → Prop :=
  ListWellFormed (NestedWellFormed limit)

namespace Grammar

variable {ks : List Kind}

def Named (ks : List Kind) : Prop := ∀ k ∈ ks, k.Named

@[simp] theorem named_cons {k : Kind} : Named (k :: ks) ↔ k.Named ∧ Named ks :=
  List.forall_mem_cons

@[simp] theorem named_append {as bs : List Kind} : Named (as ++ bs) ↔ Named as ∧ Named bs :=
  List.forall_mem_append

theorem WritesAttribute.wellFormed {selector : AttributeSelector}
    (h : WritesAttribute ks selector) (hks : Named ks) : selector.WellFormed := by
  cases h with
  | «exists» => exact ⟨(named_cons.1 (named_append.1 hks).2).1, fun _ => rfl⟩
  | compare => exact ⟨(named_cons.1 (named_append.1 hks).2).1, nofun⟩

theorem WritesFormula.wellFormed {allowOf : Bool} {formula : Formula}
    (h : WritesFormula allowOf ks formula) : formula.WellFormed := by
  obtain ⟨⟨cs, -, hformula⟩, -⟩ := h
  exact Formula.ofText?_wellFormed hformula

section Nested

-- Whatever is written in parentheses is as it has to be there.
variable {Nested : List Kind → SelectorList → Prop} {Good : SelectorList → Prop}
  (hnested : ∀ ks selectors, Nested ks selectors → Named ks → Good selectors)
include hnested

theorem WritesCall.wellFormed {function : PseudoFunction} {simple : Simple}
    (h : WritesCall Nested function ks simple) (hks : Named ks) :
    simple.WellFormed Good ∧ ¬ simple.IsType := by
  cases h with
  | nthChild hformula => exact ⟨hformula.wellFormed, id⟩
  | nthChildOf hformula hk hls =>
      have hnamed := (named_append.1 (named_cons.1 (named_append.1 hks).2).2).1
      exact ⟨⟨hformula.wellFormed, hnested _ _ hls hnamed⟩, id⟩
  | nthOfType hformula => exact ⟨hformula.wellFormed, id⟩
  | noneOf hls => exact ⟨hnested _ _ hls (named_append.1 hks).1, id⟩
  | anyOf hls => exact ⟨hnested _ _ hls (named_append.1 hks).1, id⟩

theorem WritesSimple.wellFormed {simple : Simple} (h : WritesSimple Nested ks simple)
    (hks : Named ks) : simple.WellFormed Good ∧ ¬ simple.IsType := by
  cases h with
  | hasId => exact ⟨(named_cons.1 hks).1, id⟩
  | hasClass => exact ⟨(named_cons.1 (named_cons.1 hks).2).1, id⟩
  | hasAttribute hattribute => exact ⟨hattribute.wellFormed (named_cons.1 hks).2, id⟩
  | pseudo hpseudo =>
      cases hpseudo with
      | keyword => exact ⟨trivial, id⟩
      | dynamic => exact ⟨trivial, id⟩
      | call _ hcall => exact hcall.wellFormed hnested (named_cons.1 (named_cons.1 hks).2).2

theorem WritesSimples.wellFormed {compound : Compound} (h : WritesSimples Nested ks compound)
    (hks : Named ks) : ∀ simple ∈ compound, simple.WellFormed Good ∧ ¬ simple.IsType := by
  induction h with
  | nil => exact List.forall_mem_nil _
  | cons hsimple _ ih =>
      obtain ⟨hfirst, hmore⟩ := named_append.1 hks
      exact List.forall_mem_cons.2 ⟨hsimple.wellFormed hnested hfirst, ih hmore⟩

theorem WritesCompound.wellFormed {compound : Compound} (h : WritesCompound Nested ks compound)
    (hks : Named ks) : Compound.WellFormed Good compound := by
  cases h with
  | typed htype hmore =>
      obtain ⟨hk, hms⟩ := named_cons.1 hks
      have hmore := hmore.wellFormed hnested hms
      refine ⟨List.cons_ne_nil _ _, ?_, fun simple hsimple => (hmore simple hsimple).2⟩
      refine List.forall_mem_cons.2 ⟨?_, fun simple hsimple => (hmore simple hsimple).1⟩
      cases htype with
      | tag => exact hk
      | universal => trivial
  | untyped hsimples hne =>
      have hall := hsimples.wellFormed hnested hks
      exact ⟨hne, fun simple hsimple => (hall simple hsimple).1,
        fun simple hsimple => (hall simple (List.mem_of_mem_tail hsimple)).2⟩

theorem WritesComplex.wellFormed {complex : Complex} (h : WritesComplex Nested ks complex)
    (hks : Named ks) : complex.WellFormed Good := by
  induction h with
  | compound hcompound => exact ⟨hcompound.wellFormed hnested hks, List.forall_mem_nil _⟩
  | step _ _ hsubject ih =>
      obtain ⟨hleft, hright⟩ := named_append.1 hks
      have hleft := ih hleft
      have hright := hsubject.wellFormed hnested (named_append.1 hright).2
      exact ⟨hright, List.forall_mem_cons.2 ⟨hleft.subject, hleft.links⟩⟩

theorem WritesList.wellFormed {selectors : SelectorList} (h : WritesList Nested ks selectors)
    (hks : Named ks) : ListWellFormed Good selectors := by
  induction h with
  | one _ hcomplex _ =>
      have hnamed := (named_append.1 (named_append.1 hks).2).1
      refine ⟨List.cons_ne_nil _ _, List.forall_mem_singleton.2 ?_⟩
      exact hcomplex.wellFormed hnested hnamed
  | cons _ hcomplex _ _ ih =>
      obtain ⟨hfirst, hmore⟩ := named_append.1 (named_append.1 hks).2
      have hmore := ih (named_cons.1 (named_append.1 hmore).2).2
      refine ⟨List.cons_ne_nil _ _, List.forall_mem_cons.2 ⟨?_, hmore.members⟩⟩
      exact hcomplex.wellFormed hnested hfirst

end Nested

theorem WritesNested.wellFormed (room : Nat) : ∀ ks selectors, WritesNested room ks selectors →
    Named ks → NestedWellFormed room selectors := by
  induction room with
  | zero => exact fun _ _ h _ => h
  | succ room ih => exact fun _ _ h hks => WritesList.wellFormed ih h hks

theorem Writes.wellFormed {limit : Nat} {selectors : SelectorList}
    (h : Writes limit ks selectors) (hks : Named ks) : SelectorList.WellFormed limit selectors :=
  WritesList.wellFormed (WritesNested.wellFormed limit) h hks

end Grammar

end CssQuery
