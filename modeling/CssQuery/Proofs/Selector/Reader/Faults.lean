import CssQuery.Proofs.Selector.Reader.Basic
import CssQuery.Selector.Reader.List

namespace CssQuery.Reader

variable {α β : Type} {a b : Nat}

-- All tokens start at offsets of a certain kind.
def Located (P : Nat → Prop) (ts : List Token) : Prop := ∀ t ∈ ts, P t.start

-- A reader that fails points at such an offset, and one that reads leaves such tokens.
def Keeps (P : Nat → Prop) : Except SelectorError (Reading Token α a) → Prop
  | .error error => P error.position
  | .ok read => Located P read.rest

-- The same for a reader that may find nothing.
def KeepsAny (P : Nat → Prop) : Except SelectorError (Option (Reading Token α a)) → Prop
  | .error error => P error.position
  | .ok found => ∀ read ∈ found, Located P read.rest

section Keeps

variable {P : Nat → Prop} {result : Except SelectorError (Reading Token α a)} {t : Token}
  {ts rest : List Token}

theorem Located.head (h : Located P (t :: ts)) : P t.start := h t List.mem_cons_self

theorem Located.tail (h : Located P (t :: ts)) : Located P ts := fun u hu => h u (.tail t hu)

theorem Located.skipBlanks (h : Located P ts) : Located P (skipBlanks ts) :=
  fun t ht => h t ((List.dropWhile_suffix _).subset ht)

theorem Located.behind (h : Located P ts) (hts : Reader.skipBlanks ts = t :: rest) :
    P t.start ∧ Located P rest := by
  have hskip := h.skipBlanks
  rw [hts] at hskip
  exact ⟨hskip.head, hskip.tail⟩

theorem Keeps.error {error : SelectorError} (h : Keeps P result) (he : result = .error error) :
    P error.position := by
  subst he
  exact h

theorem Keeps.ok {read : Reading Token α a} (h : Keeps P result) (hr : result = .ok read) :
    Located P read.rest := by
  subst hr
  exact h

theorem KeepsAny.error {found : Except SelectorError (Option (Reading Token α a))}
    {error : SelectorError} (h : KeepsAny P found) (he : found = .error error) :
    P error.position := by
  subst he
  exact h

theorem KeepsAny.ok {found : Except SelectorError (Option (Reading Token α a))}
    {read : Reading Token α a} (h : KeepsAny P found) (hr : found = .ok (some read)) :
    Located P read.rest := by
  subst hr
  exact h read rfl

theorem Keeps.bind {next : Reading Token α a → Except SelectorError (Reading Token β b)}
    (h : Keeps P result) (hnext : ∀ read, Located P read.rest → Keeps P (next read)) :
    Keeps P (result >>= next) := by
  cases result with
  | error error => exact h
  | ok read => exact hnext read h

theorem Keeps.map {f : Reading Token α a → Reading Token β b} (h : Keeps P result)
    (hf : ∀ read, (f read).rest = read.rest) : Keeps P (result.map f) := by
  cases result with
  | error error => exact h
  | ok read =>
      change Located P (f read).rest
      rw [hf read]
      exact h

theorem Keeps.map_some {f : Reading Token α a → Reading Token β b} (h : Keeps P result)
    (hf : ∀ read, (f read).rest = read.rest) :
    KeepsAny P (result.map fun read => some (f read)) := by
  cases result with
  | error error => exact h
  | ok read =>
      rintro _ ⟨⟩
      rw [hf read]
      exact h

end Keeps

section Readers

variable {P : Nat → Prop} {nested : ListReader} {finish colon opening : Nat} {t : Token}
  {ts : List Token}

section Attribute

theorem keeps_attributeFlag (h : Located P ts) : Keeps P (attributeFlag finish ts) := by
  unfold attributeFlag
  split
  · next flag start lexeme rest hts =>
      have hbehind := h.behind hts
      dsimp only
      split
      · exact hbehind.2
      split
      · exact hbehind.2
      · exact hbehind.1
  · exact h.skipBlanks

-- The bracket that a reader is inside of.
variable (hopening : P opening)

include hopening

theorem keeps_attributeName (h : Located P ts) : Keeps P (attributeName finish opening ts) := by
  unfold attributeName
  split
  · exact hopening
  · next t rest hts =>
      have hbehind := h.behind hts
      split
      · split
        · exact hbehind.1
        · exact hbehind.2
      · exact hbehind.1
      · exact hbehind.1
      · exact hbehind.1

theorem keeps_attributeComparison (h : Located P ts) :
    Keeps P (attributeComparison finish opening ts) := by
  unfold attributeComparison
  split
  · exact hopening
  · next t rest hts =>
      have hbehind := h.behind hts
      split
      · exact hbehind.2
      split
      · exact hbehind.2
      · exact hbehind.1

theorem keeps_attributeValue (h : Located P ts) : Keeps P (attributeValue finish opening ts) := by
  unfold attributeValue
  split
  · exact hopening
  · next t rest hts =>
      have hbehind := h.behind hts
      split
      · exact hbehind.2
      · exact hbehind.2
      · exact hbehind.1

theorem keeps_attributeClose (h : Located P ts) : Keeps P (attributeClose finish opening ts) := by
  unfold attributeClose
  split
  · exact hopening
  · next t rest hts =>
      have hbehind := h.behind hts
      split
      · exact hbehind.2
      · exact hbehind.1

theorem keeps_attributeSelector (h : Located P ts) :
    Keeps P (attributeSelector finish opening ts) := by
  unfold attributeSelector
  refine (keeps_attributeName hopening h).bind fun name hname => ?_
  refine (keeps_attributeComparison hopening hname).bind fun comparison hcomparison => ?_
  split
  · exact hcomparison
  · refine (keeps_attributeValue hopening hcomparison).bind fun value hvalue => ?_
    refine (keeps_attributeFlag hvalue).bind fun flag hflag => ?_
    exact (keeps_attributeClose hopening hflag).bind fun close hclose => hclose

end Attribute

theorem located_argument {allowOf : Bool} (h : Located P ts) :
    ∀ read ∈ argument allowOf ts, Located P read.rest := by
  induction ts with
  | nil => rintro _ ⟨⟩
  | cons t rest ih =>
      intro read hread
      rw [argument] at hread
      split at hread
      · obtain rfl := Option.some.inj hread
        exact h
      split at hread
      · obtain rfl := Option.some.inj hread
        exact h.tail
      · obtain ⟨more, hmore, rfl⟩ := Option.map_eq_some_iff.1 hread
        exact ih h.tail more hmore

section Call

-- The colon of the pseudo-class that a reader is inside of.
variable (hcolon : P colon)

include hcolon

theorem keeps_closeCall (h : Located P ts) : Keeps P (closeCall finish colon ts) := by
  unfold closeCall
  split
  · exact hcolon
  · split
    · exact h.tail
    · exact h.head

variable (hfinish : P finish)

include hfinish

omit hcolon in
theorem located_nextStart (h : Located P ts) : P (nextStart finish ts) := by
  cases ts with
  | nil => exact hfinish
  | cons t rest => exact h.head

theorem keeps_formula {allowOf : Bool} (h : Located P ts) :
    Keeps P (formula finish colon allowOf ts) := by
  unfold formula
  split
  · exact hcolon
  · next read hread =>
      split
      · exact located_argument h read hread
      · exact located_nextStart hfinish h

variable (hnested : ∀ colon ts, P colon → Located P ts → Keeps P (nested colon ts))

include hnested

omit hfinish in
theorem keeps_listCall (h : Located P ts) : Keeps P (listCall nested finish colon ts) := by
  unfold listCall
  refine (hnested colon ts hcolon h).bind fun selectors hselectors => ?_
  exact (keeps_closeCall hcolon hselectors).bind fun close hclose => hclose

theorem keeps_formulaCall {allowOf : Bool} (h : Located P ts) :
    Keeps P (formulaCall nested finish colon allowOf ts) := by
  unfold formulaCall
  refine (keeps_formula hcolon hfinish h).bind fun read hread => ?_
  split
  split
  · exact (keeps_listCall hcolon hnested hread).bind fun among hamong => hamong
  · exact (keeps_closeCall hcolon hread).bind fun close hclose => hclose

theorem keeps_call {function : PseudoFunction} (h : Located P ts) :
    Keeps P (call nested finish colon function ts) := by
  unfold call
  split
  · exact (keeps_formulaCall hcolon hfinish hnested h).map fun _ => rfl
  · exact (keeps_formulaCall hcolon hfinish hnested h).map fun _ => rfl
  · exact (keeps_listCall hcolon hnested h).map fun _ => rfl
  · exact (keeps_listCall hcolon hnested h).map fun _ => rfl
  · exact hcolon

theorem keeps_pseudoClass (h : Located P ts) : Keeps P (pseudoClass nested finish colon ts) := by
  unfold pseudoClass
  split
  · exact hfinish
  · split
    · exact hcolon
    · split
      · exact hcolon
      split
      · exact h.tail
      split
      · exact h.tail
      · exact hcolon
    · split
      · exact (keeps_call hcolon hfinish hnested h.tail).map fun _ => rfl
      · exact hcolon
    · exact h.head

end Call

-- What may be read in parentheses.
variable (hfinish : P finish)
  (hnested : ∀ colon ts, P colon → Located P ts → Keeps P (nested colon ts))

include hfinish

theorem located_unexpected (h : Located P ts) : P (unexpected finish ts).position := by
  cases ts with
  | nil => exact hfinish
  | cons t rest => exact h.head

theorem keeps_className (h : Located P ts) : Keeps P (className finish ts) := by
  unfold className
  split
  · exact h.tail
  · exact located_unexpected hfinish h

omit hfinish in
theorem keeps_typeSelector {selector : Simple} {isFirst : Bool} {rest : List Token}
    (h : Located P (t :: rest)) : Keeps P (typeSelector selector isFirst t rest) := by
  unfold typeSelector
  split
  · exact h.head
  split
  · exact h.tail
  · exact h.head

include hnested

theorem keeps_simple? {isFirst : Bool} (h : Located P ts) :
    KeepsAny P (simple? nested finish isFirst ts) := by
  unfold simple?
  split
  · rintro _ ⟨⟩
  · split
    · exact (keeps_typeSelector h).map_some (f := id) fun _ => rfl
    · exact (keeps_typeSelector h).map_some (f := id) fun _ => rfl
    · exact h.head
    · split
      · rintro _ ⟨⟩
        exact h.tail
      · exact h.head
    · exact (keeps_className hfinish h.tail).map_some fun _ => rfl
    · exact (keeps_attributeSelector h.head h.tail).map_some fun _ => rfl
    · exact (keeps_pseudoClass h.head hfinish hnested h.tail).map_some fun _ => rfl
    · rintro _ ⟨⟩

theorem keeps_simples (h : Located P ts) : Keeps P (simples nested finish ts) := by
  fun_induction simples nested finish ts with
  | case1 ts error hs => exact (keeps_simple? hfinish hnested h).error hs
  | case2 ts hs => exact h
  | case3 ts first hs error hmore ih =>
      exact (ih ((keeps_simple? hfinish hnested h).ok hs)).error hmore
  | case4 ts first hs more hmore ih =>
      have hrest := (ih ((keeps_simple? hfinish hnested h).ok hs)).ok hmore
      exact hrest

theorem keeps_compound (h : Located P ts) : Keeps P (compound nested finish ts) := by
  unfold compound
  split
  · next hs => exact (keeps_simple? hfinish hnested h).error hs
  · split
    · exact h.head
    · exact h.head
    · exact located_unexpected hfinish h
  · next first hs =>
      have hmore := keeps_simples hfinish hnested ((keeps_simple? hfinish hnested h).ok hs)
      split
      · next hsimples => exact hmore.error hsimples
      · next hsimples =>
          have hrest := hmore.ok hsimples
          exact hrest

omit hfinish hnested in
theorem keeps_combinator? (h : Located P ts) : KeepsAny P (combinator? finish ts) := by
  unfold combinator?
  split
  · rintro _ ⟨⟩
  · next t rest hts =>
      obtain ⟨ht, hrest⟩ := h.behind hts
      split
      · split
        · exact ht
        · rintro _ ⟨⟩
          exact hrest.skipBlanks
      split
      · rintro _ ⟨⟩
      split
      · rintro _ ⟨⟩
        exact h.skipBlanks
      · exact ht

theorem keeps_chain {sofar : Complex} (h : Located P ts) :
    Keeps P (chain nested finish sofar ts) := by
  fun_induction chain nested finish sofar ts with
  | case1 sofar ts error hc => exact (keeps_combinator? h).error hc
  | case2 sofar ts hc => exact h.skipBlanks
  | case3 sofar ts combinator hc error hs =>
      have hcombinator := (keeps_combinator? h).ok hc
      exact (keeps_compound hfinish hnested hcombinator).error hs
  | case4 sofar ts combinator hc subject hs links error hm ih =>
      have hcombinator := (keeps_combinator? h).ok hc
      exact (ih ((keeps_compound hfinish hnested hcombinator).ok hs)).error hm
  | case5 sofar ts combinator hc subject hs links complex hm ih =>
      have hcombinator := (keeps_combinator? h).ok hc
      exact (ih ((keeps_compound hfinish hnested hcombinator).ok hs)).ok hm

theorem keeps_complex (h : Located P ts) : Keeps P (complex nested finish ts) := by
  have hsubject := keeps_compound hfinish hnested h
  unfold complex
  split
  · next hs => exact hsubject.error hs
  · next subject hs => exact (keeps_chain hfinish hnested (hsubject.ok hs)).map fun _ => rfl

omit hfinish hnested in
theorem located_comma? (h : Located P ts) : ∀ read ∈ comma? ts, Located P read.rest := by
  unfold comma?
  split
  · rintro _ ⟨⟩
  · split
    · rintro _ ⟨⟩
      exact h.tail
    · rintro _ ⟨⟩

theorem keeps_selectorList (h : Located P ts) : Keeps P (selectorList nested finish ts) := by
  have hcomplex {ts : List Token} (h : Located P ts) :=
    keeps_complex hfinish hnested h.skipBlanks
  fun_induction selectorList nested finish ts with
  | case1 ts error hc => exact (hcomplex h).error hc
  | case2 ts read hc first hcomma => exact (hcomplex h).ok hc
  | case3 ts read hc first comma hcomma error hm ih =>
      exact (ih (located_comma? ((hcomplex h).ok hc) comma hcomma)).error hm
  | case4 ts read hc first comma hcomma more hm ih =>
      have hrest := (ih (located_comma? ((hcomplex h).ok hc) comma hcomma)).ok hm
      exact hrest

omit hnested in
-- However deep lists are nested, reading them fails at a token or where the text ends.
theorem keeps_nestedList (limit room : Nat) (colon : Nat) (ts : List Token) (hcolon : P colon)
    (h : Located P ts) : Keeps P (nestedList finish limit room colon ts) := by
  induction room generalizing colon ts with
  | zero => exact hcolon
  | succ room ih =>
      rw [nestedList]
      split
      · exact hcolon
      · exact keeps_selectorList hfinish ih h

end Readers

end CssQuery.Reader
