import CssQuery.Proofs.Query.Index
import CssQuery.Proofs.Selector.Reader.List
import CssQuery.Proofs.Selector.Written
import CssQuery.Proofs.Token.Tiling

namespace CssQuery

variable {text : String} {limit : Nat} {selectors : SelectorList}

theorem Token.named_of_scan {tokens : List Token} (h : scan text = .ok tokens) :
    Grammar.Named (tokens.map Token.kind) := by
  obtain ⟨body, hbody, hnamed⟩ := (scan_laid h).closed
  obtain rfl := List.append_cancel_right hbody
  intro k hk
  obtain ⟨t, ht, rfl⟩ := List.mem_map.1 hk
  exact (hnamed t ht).1

namespace SelectorList

theorem exists_scan (h : ofText text limit = .ok selectors) :
    ∃ tokens, Token.scan text = .ok tokens := by
  unfold ofText at h
  cases hscan : Token.scan text with
  | ok tokens => exact ⟨tokens, rfl⟩
  | error _ =>
      rw [hscan] at h
      cases h

theorem wellFormed_of_ofText (h : ofText text limit = .ok selectors) :
    WellFormed limit selectors := by
  obtain ⟨tokens, hscan⟩ := exists_scan h
  have hwrites := (ofText_eq_ok hscan).1 h
  exact hwrites.wellFormed (Token.named_of_scan hscan)

theorem exists_ofText (h : WellFormed limit selectors) :
    ∃ text, ofText text limit = .ok selectors := by
  obtain ⟨ks, hks, hwrites⟩ := Grammar.writable_of_wellFormed h
  obtain ⟨text, tokens, hscan, rfl⟩ := Token.exists_text hks
  exact ⟨text, (ofText_eq_ok hscan).2 hwrites⟩

end SelectorList

namespace Query

variable {query : Query} {options : Options}

-- Whatever is asked of the query, it is not refused for having nothing to match.
structure Answers (query : Query) : Prop where
  accepts : ∀ tree node, ∃ answer, query.accepts tree node = .ok answer
  select : ∀ tree roots mode, ∃ found, query.select tree roots mode = .ok found
  take : ∀ tree root count, ∃ found, query.take tree root count = .ok found

theorem answers_of_ne_nil (h : query.chains ≠ []) : query.Answers where
  accepts _ _ := ⟨_, checked_eq h _⟩
  select _ _ _ := ⟨_, checked_eq h _⟩
  take _ _ _ := ⟨_, checked_eq h _⟩

theorem answers_of_compile (h : compile text options = .ok query) : query.Answers := by
  obtain ⟨selectors, hread, rfl⟩ := compile_eq_ok.1 h
  have hne := (SelectorList.wellFormed_of_ofText hread).ne_nil
  apply answers_of_ne_nil
  rw [← List.isEmpty_eq_false_iff, ofSelectors, lowerList_isEmpty, List.isEmpty_eq_false_iff]
  exact hne

-- Texts write the well-formed lists and no others, and so a query that comes from a text
-- always has something to match.
theorem exists_ofText_iff_and_answers (limit : Nat) :
    (∀ selectors, (∃ text, SelectorList.ofText text limit = .ok selectors) ↔
      SelectorList.WellFormed limit selectors) ∧
    ∀ text options query, compile text options = .ok query → query.Answers := by
  refine ⟨fun selectors => ⟨?_, SelectorList.exists_ofText⟩, fun _ _ _ => answers_of_compile⟩
  rintro ⟨text, htext⟩
  exact SelectorList.wellFormed_of_ofText htext

-- A name made of a line break, the character of code zero and a quote.
def oddName : String := "\n\x00\""

def oddInner : SelectorList :=
  [⟨[.tag oddName, .nthChild .last ⟨-2, -2147483647⟩ none], []⟩]

def oddSubject : Compound := [.noneOf oddInner]

def oddParent : Compound := [.hasAttribute ⟨oddName, .compare .dashMatch oddName, .folded⟩]

def oddList : SelectorList := [⟨oddSubject, [⟨.child, oddParent⟩]⟩]

theorem wellFormed_oddList : SelectorList.WellFormed 1 oddList := by
  have hname : oddName ≠ "" := by decide
  have hinner : NestedWellFormed 1 oddInner := by
    have hformula : Formula.WellFormed ⟨-2, -2147483647⟩ := fun _ => by decide
    refine ⟨by simp [oddInner], List.forall_mem_singleton.2 ⟨⟨by simp, ?_, ?_⟩, nofun⟩⟩
    · exact List.forall_mem_cons.2 ⟨hname, List.forall_mem_singleton.2 hformula⟩
    · exact List.forall_mem_singleton.2 id
  have hsubject : Compound.WellFormed (NestedWellFormed 1) oddSubject :=
    ⟨by simp [oddSubject], List.forall_mem_singleton.2 hinner, nofun⟩
  have hparent : Compound.WellFormed (NestedWellFormed 1) oddParent :=
    ⟨by simp [oddParent], List.forall_mem_singleton.2 ⟨hname, nofun⟩, nofun⟩
  exact ⟨by simp [oddList],
    List.forall_mem_singleton.2 ⟨hsubject, List.forall_mem_singleton.2 hparent⟩⟩

theorem exists_ofText_iff_and_answers_odd :
    (∃ text, SelectorList.ofText text 1 = .ok oddList) ∧
      (¬ ∃ text, SelectorList.ofText text 0 = .ok oddList) ∧
      ∃ query, compile ":not(*)" {} = .ok query ∧ query.Answers := by
  refine ⟨((exists_ofText_iff_and_answers 1).1 _).2 wellFormed_oddList, ?_, ?_⟩
  · rw [(exists_ofText_iff_and_answers 0).1]
    intro h
    have hsubject := (h.members _ List.mem_cons_self).subject
    exact hsubject.simples _ List.mem_cons_self
  · have hcompile : compile ":not(*)" {} =
        .ok (ofSelectors ":not(*)" [⟨[.noneOf [⟨[.universal], []⟩]], []⟩] {}) := by
      with_unfolding_all rfl
    exact ⟨_, hcompile, (exists_ofText_iff_and_answers 0).2 _ _ _ hcompile⟩

end Query

end CssQuery
