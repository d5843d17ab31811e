import CssQuery.Proofs.Selector.Reader.Compound
import CssQuery.Proofs.Selector.WellFormed
import CssQuery.Proofs.Token.Spelling

namespace CssQuery.Grammar

open Token

-- Whatever is well-formed is written by kinds that a text can give.

variable {ks : List Kind} {selector : AttributeSelector} {f : Formula}

def Writable (P : List Kind → Prop) : Prop := ∃ ks, Solid ks ∧ P ks

theorem blanks_nil : Blanks [] := List.forall_mem_nil _

theorem spellable_delim {symbol : Char} (h : symbol ∈ ['=', '.', '*', '>', '+', '~', '-']) :
    Spellable (.delim symbol) := h

theorem spellable_ident {name : String} (h : name ≠ "") : Spellable (.ident name) := h

theorem exists_comparison (comparison : Comparison) :
    ∃ c, WritesComparison c comparison ∧ Spellable c := by
  cases comparison with
  | equals => exact ⟨_, .equals, spellable_delim (by decide)⟩
  | includes => exact ⟨_, .includes, trivial⟩
  | dashMatch => exact ⟨_, .dashMatch, trivial⟩
  | startsWith => exact ⟨_, .startsWith, trivial⟩
  | endsWith => exact ⟨_, .endsWith, trivial⟩
  | contains => exact ⟨_, .contains, trivial⟩

theorem writable_flag (letterCase : LetterCase) : Writable (WritesFlag · letterCase) := by
  cases letterCase with
  | exact => exact ⟨[], .nil, .absent⟩
  | folded =>
      exact ⟨[.ident "i"], .cons (spellable_ident (by decide)) .nil,
        .folded (by decide) blanks_nil⟩

theorem writable_attribute (h : selector.WellFormed) : Writable (WritesAttribute · selector) := by
  obtain ⟨name, test, letterCase⟩ := selector
  obtain ⟨hname, hexact⟩ := h
  have hclose : Solid [.closeBracket] := .cons trivial .nil
  cases test with
  | «exists» =>
      obtain rfl : letterCase = .exact := hexact rfl
      exact ⟨[.ident name, .closeBracket], .cons hname hclose, .exists blanks_nil blanks_nil⟩
  | compare comparison value =>
      obtain ⟨c, hcomparison, hc⟩ := exists_comparison comparison
      obtain ⟨fs, hfs, hflag⟩ := writable_flag letterCase
      have hvalue : Spellable (.string value) := trivial
      refine ⟨.ident name :: c :: .string value :: (fs ++ [.closeBracket]), ?_, ?_⟩
      · exact .cons hname (.cons hc (.cons hvalue (hfs.append hclose)))
      · exact .compare blanks_nil blanks_nil hcomparison blanks_nil .string blanks_nil hflag

def numberKinds (x : Int32) : List Kind :=
  [.delim (Formula.signOf x), .number (String.ofList (Formula.digitsOf x))]

-- The letter n comes between two numbers, unless the first one would be zero.
def formulaKinds (f : Formula) : List Kind :=
  if f.step = 0 then numberKinds f.offset
  else numberKinds f.step ++ .ident "n" :: numberKinds f.offset

theorem solid_numberKinds (x : Int32) : Solid (numberKinds x) := by
  have hsign : Formula.signOf x ∈ ['=', '.', '*', '>', '+', '~', '-'] := by
    unfold Formula.signOf
    split <;> decide
  have hdigits : Text.isDigits (String.ofList (Formula.digitsOf x)).toList = true := by
    rw [String.toList_ofList]
    exact Formula.isDigits_digitsOf
  exact .cons hsign (.cons hdigits .nil)

theorem WritesText.numberKinds {cs : List Char} (h : WritesText ks cs) (x : Int32) :
    WritesText (numberKinds x ++ ks) (Formula.written x ++ cs) := by
  have hnumber : WritesText (.number (String.ofList (Formula.digitsOf x)) :: ks)
      (Formula.digitsOf x ++ cs) := by
    have hread : WritesText (.number (String.ofList (Formula.digitsOf x)) :: ks)
        ((String.ofList (Formula.digitsOf x)).toList ++ cs) := .number h
    rwa [String.toList_ofList] at hread
  exact .delim hnumber

theorem writesText_numberKinds (x : Int32) :
    WritesText (numberKinds x) (Formula.written x) := by
  have htext := WritesText.nil.numberKinds x
  rwa [List.append_nil, List.append_nil] at htext

theorem solid_formulaKinds (f : Formula) : Solid (formulaKinds f) := by
  have hn : Spellable (.ident "n") := spellable_ident (by decide)
  unfold formulaKinds
  split
  · exact solid_numberKinds f.offset
  · exact (solid_numberKinds f.step).append (.cons hn (solid_numberKinds f.offset))

theorem ofText?_formulaKinds (h : f.WellFormed) :
    ∃ cs, WritesText (formulaKinds f) cs ∧ Formula.ofText? (String.ofList cs) = some f := by
  unfold formulaKinds
  split
  · next hstep =>
      refine ⟨_, writesText_numberKinds f.offset, ?_⟩
      rw [Formula.ofText?_offset, ← hstep]
  · next hstep =>
      have hoffset : WritesText (.ident "n" :: numberKinds f.offset)
          ('n' :: Formula.written f.offset) := .ident (writesText_numberKinds f.offset)
      exact ⟨_, hoffset.numberKinds f.step, Formula.ofText?_step (h hstep)⟩

theorem not_writesOf_formulaKinds (f : Formula) : ∀ k ∈ formulaKinds f, ¬ WritesOf k := by
  have hnumber (x : Int32) : ∀ k ∈ numberKinds x, ¬ WritesOf k := by
    simp [numberKinds, WritesOf]
  have hn : ¬ WritesOf (.ident "n") := by
    rintro ⟨word, hword, hof⟩
    obtain rfl := Kind.ident.inj hword
    revert hof
    decide
  unfold formulaKinds
  split
  · exact hnumber f.offset
  · exact List.forall_mem_append.2 ⟨hnumber f.step, List.forall_mem_cons.2 ⟨hn, hnumber f.offset⟩⟩

theorem writesFormula_formulaKinds (allowOf : Bool) (h : f.WellFormed) :
    WritesFormula allowOf (formulaKinds f) f :=
  ⟨ofText?_formulaKinds h, fun _ => not_writesOf_formulaKinds f⟩

theorem ofName?_name (keyword : Keyword) :
    keyword.name ≠ "" ∧ Keyword.ofName? keyword.name = some keyword := by
  cases keyword <;> decide

section Nested

variable {Nested : List Kind → SelectorList → Prop} {Good : SelectorList → Prop}
  {simple : Simple} {compound : Compound} {complex : Complex}

theorem writable_call {function : PseudoFunction} (name : String) (hname : name ≠ "")
    (hfunction : PseudoFunction.ofName? name = some function)
    (h : Writable (WritesCall Nested function · simple)) :
    Writable (WritesSimple Nested · simple) := by
  obtain ⟨ks, hks, hcall⟩ := h
  exact ⟨.colon :: .function name :: ks, .cons trivial (.cons hname hks),
    .pseudo (.call hfunction hcall)⟩

-- Whatever lists may stand in parentheses can be written.
variable (hnested : ∀ selectors, Good selectors → Writable (Nested · selectors))
include hnested

theorem writable_nthChild (edge : Edge) (among : Option SelectorList)
    (h : (Simple.nthChild edge f among).WellFormed Good) :
    Writable (WritesCall Nested (.nthChild edge) · (.nthChild edge f among)) := by
  have hclose : Solid [.closeParen] := .cons trivial .nil
  have hof : WritesOf (.ident "of") := ⟨"of", rfl, by decide⟩
  have hword : Spellable (.ident "of") := spellable_ident (by decide)
  cases among with
  | none =>
      have hformula := writesFormula_formulaKinds true h
      exact ⟨_, (solid_formulaKinds f).append hclose, .nthChild hformula⟩
  | some among =>
      have hformula := writesFormula_formulaKinds true h.1
      obtain ⟨ls, hls, hlist⟩ := hnested among h.2
      exact ⟨_, (solid_formulaKinds f).append (.cons hword (hls.append hclose)),
        .nthChildOf hformula hof hlist⟩

theorem writable_simple (h : simple.WellFormed Good) (htype : ¬ simple.IsType) :
    Writable (WritesSimple Nested · simple) := by
  have hclose : Solid [.closeParen] := .cons trivial .nil
  cases simple with
  | tag | universal => exact absurd trivial htype
  | hasClass name =>
      exact ⟨[.delim '.', .ident name], .cons (spellable_delim (by decide)) (.cons h .nil),
        .hasClass⟩
  | hasId name => exact ⟨[.hash name true], .cons ⟨h, rfl⟩ .nil, .hasId⟩
  | hasAttribute selector =>
      obtain ⟨ks, hks, hattribute⟩ := writable_attribute h
      exact ⟨.openBracket :: ks, .cons trivial hks, .hasAttribute hattribute⟩
  | keyword keyword =>
      obtain ⟨hname, hkeyword⟩ := ofName?_name keyword
      exact ⟨[.colon, .ident keyword.name], .cons trivial (.cons hname .nil),
        .pseudo (.keyword hkeyword)⟩
  | nthChild edge f among =>
      have hcall := writable_nthChild hnested edge among h
      cases edge with
      | first => exact writable_call "nth-child" (by decide) (by decide) hcall
      | last => exact writable_call "nth-last-child" (by decide) (by decide) hcall
  | nthOfType edge f =>
      have hcall : Writable (WritesCall Nested (.nthOfType edge) · (.nthOfType edge f)) :=
        ⟨_, (solid_formulaKinds f).append hclose, .nthOfType (writesFormula_formulaKinds false h)⟩
      cases edge with
      | first => exact writable_call "nth-of-type" (by decide) (by decide) hcall
      | last => exact writable_call "nth-last-of-type" (by decide) (by decide) hcall
  | noneOf selectors =>
      obtain ⟨ls, hls, hlist⟩ := hnested selectors h
      exact writable_call "not" (by decide) (by decide)
        ⟨ls ++ [.closeParen], hls.append hclose, .noneOf hlist⟩
  | anyOf selectors =>
      obtain ⟨ls, hls, hlist⟩ := hnested selectors h
      exact writable_call "is" (by decide) (by decide)
        ⟨ls ++ [.closeParen], hls.append hclose, .anyOf hlist⟩
  | never =>
      exact ⟨[.colon, .ident "hover"], .cons trivial (.cons (spellable_ident (by decide)) .nil),
        .pseudo (.dynamic (by decide))⟩

theorem writable_simples (h : ∀ simple ∈ compound, simple.WellFormed Good ∧ ¬ simple.IsType) :
    Writable (WritesSimples Nested · compound) := by
  induction compound with
  | nil => exact ⟨[], .nil, .nil⟩
  | cons simple more ih =>
      obtain ⟨⟨hsimple, htype⟩, hmore⟩ := List.forall_mem_cons.1 h
      obtain ⟨ks, hks, hfirst⟩ := writable_simple hnested hsimple htype
      obtain ⟨ms, hms, hrest⟩ := ih hmore
      exact ⟨ks ++ ms, hks.append hms, .cons hfirst hrest⟩

theorem writable_compound (h : Compound.WellFormed Good compound) :
    Writable (WritesCompound Nested · compound) := by
  obtain ⟨hne, hsimples, htypes⟩ := h
  cases compound with
  | nil => exact absurd rfl hne
  | cons first more =>
      obtain ⟨hfirst, hmore⟩ := List.forall_mem_cons.1 hsimples
      have hplain : ∀ simple ∈ more, simple.WellFormed Good ∧ ¬ simple.IsType :=
        fun simple hsimple => ⟨hmore simple hsimple, htypes simple hsimple⟩
      by_cases htype : first.IsType
      · obtain ⟨ms, hms, hrest⟩ := writable_simples hnested hplain
        cases first with
        | tag name => exact ⟨.ident name :: ms, .cons hfirst hms, .typed .tag hrest⟩
        | universal =>
            exact ⟨.delim '*' :: ms, .cons (spellable_delim (by decide)) hms,
              .typed .universal hrest⟩
        | _ => exact htype.elim
      · obtain ⟨ks, hks, hall⟩ :=
          writable_simples hnested (List.forall_mem_cons.2 ⟨⟨hfirst, htype⟩, hplain⟩)
        exact ⟨ks, hks, .untyped hall hne⟩

-- A compound may follow any combinator. It begins with no blank, so a blank may come
-- before it.
theorem writable_behind (combinator : Combinator) (h : Compound.WellFormed Good compound) :
    Writable fun ks => ∃ cs ms, ks = cs ++ ms ∧ WritesCombinator cs combinator ∧
      WritesCompound Nested ms compound := by
  obtain ⟨ms, hms, hcompound⟩ := writable_compound hnested h
  cases combinator with
  | descendant =>
      have hblank : Blanks [.blank] := List.forall_mem_singleton.2 rfl
      obtain ⟨k, more, rfl, hopens⟩ := Reader.opens_of_compound hcompound
      refine ⟨.blank :: k :: more, ?_, [.blank], _, rfl, .descendant hblank (by simp), hcompound⟩
      cases hms with
      | cons hk hmore => exact .blank hk hmore
      | blank => cases hopens
  | child =>
      exact ⟨.delim '>' :: ms, .cons (spellable_delim (by decide)) hms, [.delim '>'], ms, rfl,
        .child blanks_nil blanks_nil, hcompound⟩
  | nextSibling =>
      exact ⟨.delim '+' :: ms, .cons (spellable_delim (by decide)) hms, [.delim '+'], ms, rfl,
        .nextSibling blanks_nil blanks_nil, hcompound⟩
  | subsequentSibling =>
      exact ⟨.delim '~' :: ms, .cons (spellable_delim (by decide)) hms, [.delim '~'], ms, rfl,
        .subsequentSibling blanks_nil blanks_nil, hcompound⟩

-- The nearest link is the last one written, so the others are written with the compound
-- it leads to as their subject.
theorem writable_complex (h : complex.WellFormed Good) :
    Writable (WritesComplex Nested · complex) := by
  obtain ⟨subject, links⟩ := complex
  obtain ⟨hsubject, hlinks⟩ := h
  induction links generalizing subject with
  | nil =>
      obtain ⟨ks, hks, hcompound⟩ := writable_compound hnested hsubject
      exact ⟨ks, hks, .compound hcompound⟩
  | cons link more ih =>
      obtain ⟨combinator, compound⟩ := link
      obtain ⟨hlink, hmore⟩ := List.forall_mem_cons.1 hlinks
      obtain ⟨ls, hls, hleft⟩ := ih compound hlink hmore
      obtain ⟨_, hks, cs, ms, rfl, hcombinator, hright⟩ :=
        writable_behind hnested combinator hsubject
      exact ⟨ls ++ (cs ++ ms), hls.append hks, .step hleft hcombinator hright⟩

theorem writable_list {selectors : SelectorList} (h : ListWellFormed Good selectors) :
    Writable (WritesList Nested · selectors) := by
  obtain ⟨hne, hmembers⟩ := h
  induction selectors with
  | nil => exact absurd rfl hne
  | cons complex more ih =>
      obtain ⟨hcomplex, hmore⟩ := List.forall_mem_cons.1 hmembers
      obtain ⟨ks, hks, hwrites⟩ := writable_complex hnested hcomplex
      by_cases hlast : more = []
      · subst hlast
        exact ⟨ks ++ [], hks.append .nil, .one blanks_nil hwrites blanks_nil⟩
      · obtain ⟨ms, hms, hrest⟩ := ih hlast hmore
        exact ⟨ks ++ .comma :: ms, hks.append (.cons trivial hms),
          .cons blanks_nil hwrites blanks_nil hrest⟩

end Nested

theorem writable_nested (room : Nat) : ∀ selectors, NestedWellFormed room selectors →
    Writable (WritesNested room · selectors) := by
  induction room with
  | zero => exact fun _ => False.elim
  | succ room ih => exact fun _ h => writable_list ih h

theorem writable_of_wellFormed {limit : Nat} {selectors : SelectorList}
    (h : SelectorList.WellFormed limit selectors) : Writable (Writes limit · selectors) :=
  writable_list (writable_nested limit) h

end CssQuery.Grammar
