import CssQuery.Proofs.Selector.Reader.Basic
import CssQuery.Selector.Reader.Pseudo

namespace CssQuery.Reader

open Grammar

variable {finish colon : Nat} {k : Kind} {ks : List Kind} {cs : List Char} {allowOf hasOf : Bool}
  {f : Formula} {selectors : SelectorList} {simple : Simple} {t : Token} {ts mid rest : List Token}

theorem isOf_iff : isOf k = true ↔ WritesOf k := by
  cases k <;> simp [isOf, WritesOf]

-- The tokens of a formula's text, with no word "of" among them where it would end it.
def FormulaText (allowOf : Bool) (cs : List Char) (ks : List Kind) : Prop :=
  WritesText ks cs ∧ (allowOf = true → ∀ k ∈ ks, ¬ WritesOf k)

theorem writesText_iff : WritesText ks cs ↔
    ks = [] ∧ cs = [] ∨
      ∃ piece more, cs = piece ++ more ∧ Led (piece? · = some piece) (WritesText · more) ks := by
  constructor
  · intro h
    cases h with
    | nil => exact .inl ⟨rfl, rfl⟩
    | ident h | number h | delim h | blank h => exact .inr ⟨_, _, rfl, .intro rfl h⟩
  · rintro (⟨rfl, rfl⟩ | ⟨piece, more, rfl, k, bs, rfl, hk, h⟩)
    · exact .nil
    · cases k with
      | ident name =>
          obtain rfl := Option.some.inj hk
          exact .ident h
      | number digits =>
          obtain rfl := Option.some.inj hk
          exact .number h
      | delim symbol =>
          obtain rfl := Option.some.inj hk
          exact .delim h
      | blank =>
          obtain rfl := Option.some.inj hk
          exact .blank h
      | _ => cases hk

theorem formulaText_iff : FormulaText allowOf cs ks ↔
    cs = [] ∧ ks = [] ∨
      ∃ piece more, cs = piece ++ more ∧
        Led (fun k => piece? k = some piece ∧ (allowOf = true → ¬ WritesOf k))
          (FormulaText allowOf more) ks := by
  rw [FormulaText, writesText_iff]
  constructor
  · rintro ⟨⟨rfl, rfl⟩ | ⟨piece, more, rfl, k, bs, rfl, hk, hbs⟩, hof⟩
    · exact .inl ⟨rfl, rfl⟩
    · have hfirst (h : allowOf = true) : ¬ WritesOf k := hof h k List.mem_cons_self
      have hmore (h : allowOf = true) : ∀ l ∈ bs, ¬ WritesOf l :=
        fun l hl => hof h l (List.mem_cons_of_mem k hl)
      exact .inr ⟨piece, more, rfl, .intro ⟨hk, hfirst⟩ ⟨hbs, hmore⟩⟩
  · rintro (⟨rfl, rfl⟩ | ⟨piece, more, rfl, k, bs, rfl, ⟨hk, hnot⟩, hbs, hof⟩)
    · exact ⟨.inl ⟨rfl, rfl⟩, by simp⟩
    · exact ⟨.inr ⟨piece, more, rfl, .intro hk hbs⟩,
        fun h => List.forall_mem_cons.2 ⟨hnot h, hof h⟩⟩

def CloseAhead (ts : List Token) : Prop := ∃ t more, ts = t :: more ∧ t.kind = .closeParen

-- What ends a formula: a parenthesis that stays, or the word "of", which is read with it.
def Stops (allowOf hasOf : Bool) (ts rest : List Token) : Prop :=
  hasOf = false ∧ ts = rest ∧ CloseAhead rest ∨
    hasOf = true ∧ allowOf = true ∧ ∃ t, ts = t :: rest ∧ WritesOf t.kind

theorem covers_formulaText : Covers ts rest (FormulaText allowOf cs) ↔
    cs = [] ∧ ts = rest ∨
      ∃ piece more, cs = piece ++ more ∧ ∃ t mid, ts = t :: mid ∧
        (piece? t.kind = some piece ∧ (allowOf = true → ¬ WritesOf t.kind)) ∧
          Covers mid rest (FormulaText allowOf more) := by
  rw [covers_congr fun ks => formulaText_iff]
  simp only [covers_or, covers_and, covers_nil, covers_exists, covers_led]

-- A formula's text and what ends it.
def Argued (allowOf hasOf : Bool) (cs : List Char) (ts rest : List Token) : Prop :=
  ∃ mid, Covers ts mid (FormulaText allowOf cs) ∧ Stops allowOf hasOf mid rest

theorem not_argued_nil : ¬ Argued allowOf hasOf cs [] rest := by
  rintro ⟨mid, htext, hstops⟩
  obtain ⟨used, hused, -⟩ := htext
  obtain ⟨-, rfl⟩ := List.append_eq_nil_iff.1 hused.symm
  obtain ⟨-, rfl, _, _, h, -⟩ | ⟨-, -, _, h, -⟩ := hstops <;> cases h

theorem argued_cons : Argued allowOf hasOf cs (t :: ts) rest ↔
    cs = [] ∧ Stops allowOf hasOf (t :: ts) rest ∨
      ∃ piece more, cs = piece ++ more ∧ (piece? t.kind = some piece ∧
        (allowOf = true → ¬ WritesOf t.kind)) ∧ Argued allowOf hasOf more ts rest := by
  constructor
  · rintro ⟨mid, htext, hstops⟩
    obtain ⟨rfl, rfl⟩ | ⟨piece, more, rfl, _, _, ⟨⟩, hpiece, htext⟩ := covers_formulaText.1 htext
    · exact .inl ⟨rfl, hstops⟩
    · exact .inr ⟨piece, more, rfl, hpiece, mid, htext, hstops⟩
  · rintro (⟨rfl, hstops⟩ | ⟨piece, more, rfl, hpiece, mid, htext, hstops⟩)
    · exact ⟨t :: ts, covers_formulaText.2 (.inl ⟨rfl, rfl⟩), hstops⟩
    · exact ⟨mid, covers_formulaText.2 (.inr ⟨piece, more, rfl, t, ts, rfl, hpiece, htext⟩), hstops⟩

theorem stops_cons : Stops allowOf hasOf (t :: ts) rest ↔
    hasOf = false ∧ t.kind = .closeParen ∧ t :: ts = rest ∨
      hasOf = true ∧ allowOf = true ∧ WritesOf t.kind ∧ ts = rest := by
  simp only [Stops, CloseAhead]
  grind

theorem behind_eq {argument : Argument} : argument.behind t = ⟨cs, true, hasOf⟩ ↔
    ∃ piece more, cs = piece ++ more ∧ piece? t.kind = some piece ∧
      argument = ⟨more, true, hasOf⟩ := by
  obtain ⟨text, isPlain, found⟩ := argument
  unfold Argument.behind
  split
  · next piece hpiece =>
      simp only [hpiece, Argument.mk.injEq, Option.some.injEq]
      grind
  · next hpiece => simp [hpiece]

-- A formula's text reaches up to the first token that ends it.
theorem finds_argument :
    Finds (argument allowOf ts) ⟨cs, true, hasOf⟩ rest ↔ Argued allowOf hasOf cs ts rest := by
  induction ts generalizing cs with
  | nil => simp [argument, not_argued_nil]
  | cons t ts ih =>
      rw [argued_cons, stops_cons, argument]
      split
      · next hclose =>
          have hof : ¬ WritesOf t.kind := by simp [hclose, WritesOf]
          have hpiece : piece? t.kind = none := hclose ▸ rfl
          simp only [finds_some, Reading.ofNone_value, Reading.ofNone_rest, Argument.mk.injEq]
          grind
      · split
        · next hclose hof =>
            rw [Bool.and_eq_true, isOf_iff] at hof
            simp only [finds_some, Reading.weaken_value, Reading.ofHead_value,
              Reading.weaken_rest, Reading.ofHead_rest, Argument.mk.injEq]
            grind
        · next hclose hof =>
            rw [Bool.and_eq_true, isOf_iff] at hof
            simp only [finds_map, Reading.weaken_value, Reading.map_value, Reading.weaken_rest,
              Reading.map_rest, behind_eq]
            constructor
            · rintro ⟨_, _, hmore, ⟨piece, more, rfl, hpiece, rfl⟩, rfl⟩
              exact .inr ⟨piece, more, rfl, ⟨hpiece, fun h hk => hof ⟨h, hk⟩⟩, ih.1 hmore⟩
            · rintro (⟨-, ⟨-, hkind, -⟩ | ⟨-, hallow, hkind, -⟩⟩ |
                ⟨piece, more, rfl, ⟨hpiece, -⟩, hmore⟩)
              · exact absurd hkind hclose
              · exact absurd ⟨hallow, hkind⟩ hof
              · exact ⟨_, rest, ih.2 hmore, ⟨piece, more, rfl, hpiece, rfl⟩, rfl⟩

theorem covers_formula : Covers ts rest (WritesFormula allowOf · f) ↔
    ∃ cs, Formula.ofText? (String.ofList cs) = some f ∧
      Covers ts rest (FormulaText allowOf cs) := by
  simp only [← covers_and, ← covers_exists]
  refine covers_congr fun ks => ?_
  constructor
  · rintro ⟨⟨cs, htext, hformula⟩, hof⟩
    exact ⟨cs, hformula, htext, hof⟩
  · rintro ⟨cs, hformula, htext, hof⟩
    exact ⟨⟨cs, htext, hformula⟩, hof⟩

theorem yields_formula : Yields (formula finish colon allowOf ts) (f, hasOf) rest ↔
    ∃ mid, Covers ts mid (WritesFormula allowOf · f) ∧ Stops allowOf hasOf mid rest := by
  have hargued : (∃ mid, Covers ts mid (WritesFormula allowOf · f) ∧ Stops allowOf hasOf mid rest) ↔
      ∃ cs, Formula.ofText? (String.ofList cs) = some f ∧
        Finds (argument allowOf ts) ⟨cs, true, hasOf⟩ rest := by
    simp only [covers_formula, finds_argument, Argued]
    grind
  rw [hargued, formula]
  split
  · next hnone => simp [hnone]
  · next read hread =>
      obtain ⟨⟨text, isPlain, found⟩, left, within⟩ := read
      simp only [hread, finds_some, Argument.formula?]
      cases isPlain with
      | false => simp
      | true =>
          simp only [if_true, Argument.mk.injEq, true_and]
          split
          · next found' hfound =>
              simp only [yields_ok, Reading.map_value, Reading.map_rest, Prod.mk.injEq]
              grind
          · next hnot =>
              simp only [yields_error]
              grind

theorem yields_closeCall : Yields (closeCall finish colon ts) () rest ↔
    Covers ts rest (Led (· = .closeParen) (· = [])) := by
  cases ts with
  | nil => simp [closeCall]
  | cons t ts =>
      rw [closeCall, covers_led_cons, covers_nil]
      split <;> simp [*]

theorem sameFolded_congr {a b : String} (h : Text.fold a = Text.fold b) :
    Text.sameFolded a = Text.sameFolded b := by
  funext c
  rw [Text.sameFolded, Text.sameFolded, h]

theorem keyword_ofName?_congr {a b : String} (h : Text.fold a = Text.fold b) :
    Keyword.ofName? a = Keyword.ofName? b := by
  rw [Keyword.ofName?, Keyword.ofName?, sameFolded_congr h]

theorem isDynamicName_congr {a b : String} (h : Text.fold a = Text.fold b) :
    isDynamicName a = isDynamicName b := by
  rw [isDynamicName, isDynamicName, sameFolded_congr h]

-- No name is both a keyword and the name of something else.
theorem ofName?_of_dynamic {name : String} (h : isDynamicName name = true) :
    Keyword.ofName? name = none := by
  simp only [isDynamicName, Text.sameFolded, List.any_cons, List.any_nil, Bool.or_eq_true,
    beq_iff_eq, Bool.or_false] at h
  rcases h with h | h | h | h | h | h | h | h <;> rw [keyword_ofName?_congr h] <;> decide

theorem ofName?_of_legacy {name : String} (h : isLegacyPseudoElement name = true) :
    Keyword.ofName? name = none ∧ isDynamicName name = false := by
  simp only [isLegacyPseudoElement, Text.sameFolded, List.any_cons, List.any_nil, Bool.or_eq_true,
    beq_iff_eq, Bool.or_false] at h
  rcases h with h | h | h | h <;> rw [keyword_ofName?_congr h, isDynamicName_congr h] <;> decide

-- What a name alone stands for behind a colon.
def NameSays (name : String) (simple : Simple) : Prop :=
  (∃ keyword, Keyword.ofName? name = some keyword ∧ simple = .keyword keyword) ∨
    isDynamicName name = true ∧ simple = .never

section Nested

variable {nested : ListReader} {Nested : List Kind → SelectorList → Prop}

-- A reader of nested lists that reads all lists of some form up to the parenthesis that
-- closes them.
def Reads (nested : ListReader) (Nested : List Kind → SelectorList → Prop) : Prop :=
  ∀ colon ts selectors rest, Yields (nested colon ts) selectors rest ↔
    (rest = [] ∨ CloseAhead rest) ∧ Covers ts rest (Nested · selectors)

-- A form and the parenthesis that closes the call it stands in.
def Closed (P : List Kind → Prop) : List Kind → Prop := Then P (Led (· = .closeParen) (· = []))

theorem Closed.intro {P : List Kind → Prop} (h : P ks) : Closed P (ks ++ [.closeParen]) :=
  Then.intro h (Led.intro rfl rfl)

variable (finish colon) in
theorem covers_closed {P : List Kind → Prop} : Covers ts rest (Closed P) ↔
    ∃ mid, Covers ts mid P ∧ Yields (closeCall finish colon mid) () rest := by
  simp only [Closed, covers_then, yields_closeCall]

theorem closeAhead_of_yields (h : Yields (closeCall finish colon ts) () rest) : CloseAhead ts := by
  rw [yields_closeCall, covers_led] at h
  obtain ⟨t, mid, rfl, ht, -⟩ := h
  exact ⟨t, mid, rfl, ht⟩

variable (finish colon) in
theorem yields_listCall (hnested : Reads nested Nested) :
    Yields (listCall nested finish colon ts) selectors rest ↔
      Covers ts rest (Closed (Nested · selectors)) := by
  rw [covers_closed finish colon, listCall]
  simp only [yields_bind]
  constructor
  · rintro ⟨found, mid, hfound, ⟨⟩, left, hclose, hend⟩
    obtain ⟨rfl, rfl⟩ := yields_ok.1 hend
    exact ⟨mid, ((hnested _ _ _ _).1 hfound).2, hclose⟩
  · rintro ⟨mid, hlist, hclose⟩
    have hlist := (hnested colon _ _ _).2 ⟨.inr (closeAhead_of_yields hclose), hlist⟩
    exact ⟨selectors, mid, hlist, (), rest, hclose, yields_ok.2 ⟨rfl, rfl⟩⟩

theorem yields_formulaCall (hnested : Reads nested Nested) {among : Option SelectorList} :
    Yields (formulaCall nested finish colon allowOf ts) (f, among) rest ↔
      among = none ∧ Covers ts rest (Closed (WritesFormula allowOf · f)) ∨
        ∃ selectors, among = some selectors ∧ allowOf = true ∧ Covers ts rest
          (Then (WritesFormula allowOf · f) (Led WritesOf (Closed (Nested · selectors)))) := by
  rw [covers_closed finish colon, formulaCall]
  simp only [yields_bind, covers_then, covers_led, ← yields_listCall finish colon hnested]
  constructor
  · rintro ⟨⟨found, hasOf⟩, mid, hfound, h⟩
    obtain ⟨front, hfront, ⟨rfl, rfl, -⟩ | ⟨rfl, hallow, t, rfl, ht⟩⟩ := yields_formula.1 hfound
    · simp only [Bool.false_eq_true, if_false, yields_bind] at h
      obtain ⟨⟨⟩, left, hclose, hend⟩ := h
      obtain ⟨⟨⟩, rfl⟩ := yields_ok.1 hend
      exact .inl ⟨rfl, front, hfront, hclose⟩
    · simp only [if_true, yields_bind] at h
      obtain ⟨selectors, left, hlist, hend⟩ := h
      obtain ⟨⟨⟩, rfl⟩ := yields_ok.1 hend
      exact .inr ⟨selectors, rfl, hallow, t :: mid, hfront, t, mid, rfl, ht, hlist⟩
  · rintro (⟨rfl, mid, hformula, hclose⟩ |
      ⟨selectors, rfl, hallow, mid, hformula, t, more, rfl, ht, hlist⟩)
    · have hstops : Stops allowOf false mid mid := .inl ⟨rfl, rfl, closeAhead_of_yields hclose⟩
      refine ⟨(f, false), mid, yields_formula.2 ⟨mid, hformula, hstops⟩, ?_⟩
      simp only [Bool.false_eq_true, if_false, yields_bind]
      exact ⟨(), rest, hclose, yields_ok.2 ⟨rfl, rfl⟩⟩
    · have hstops : Stops allowOf true (t :: more) more := .inr ⟨rfl, hallow, t, rfl, ht⟩
      refine ⟨(f, true), more, yields_formula.2 ⟨t :: more, hformula, hstops⟩, ?_⟩
      simp only [if_true, yields_bind]
      exact ⟨selectors, rest, hlist, yields_ok.2 ⟨rfl, rfl⟩⟩

theorem writesCall_iff {function : PseudoFunction} : WritesCall Nested function ks simple ↔
    match function with
    | .nthChild edge => ∃ f among, simple = .nthChild edge f among ∧
        (among = none ∧ Closed (WritesFormula true · f) ks ∨ ∃ selectors, among = some selectors ∧
          Then (WritesFormula true · f) (Led WritesOf (Closed (Nested · selectors))) ks)
    | .nthOfType edge => ∃ f, simple = .nthOfType edge f ∧ Closed (WritesFormula false · f) ks
    | .noneOf => ∃ selectors, simple = .noneOf selectors ∧ Closed (Nested · selectors) ks
    | .anyOf => ∃ selectors, simple = .anyOf selectors ∧ Closed (Nested · selectors) ks
    | .has => False := by
  constructor
  · intro h
    cases h with
    | @nthChild edge f ks hks =>
        exact ⟨f, none, rfl, .inl ⟨rfl, .intro hks⟩⟩
    | nthChildOf hks hk hls =>
        exact ⟨_, _, rfl, .inr ⟨_, rfl, .intro hks (.intro hk (.intro hls))⟩⟩
    | nthOfType hks => exact ⟨_, rfl, .intro hks⟩
    | noneOf hls => exact ⟨_, rfl, .intro hls⟩
    | anyOf hls => exact ⟨_, rfl, .intro hls⟩
  · intro h
    cases function with
    | nthChild edge =>
        obtain ⟨f, among, rfl, ⟨rfl, ks, _, rfl, hks, _, _, rfl, rfl, rfl⟩ |
          ⟨selectors, rfl, ks, _, rfl, hks, k, _, rfl, hk, ls, _, rfl, hls, _, _, rfl, rfl,
            rfl⟩⟩ := h
        · exact .nthChild hks
        · exact .nthChildOf hks hk hls
    | nthOfType edge =>
        obtain ⟨f, rfl, ks, _, rfl, hks, _, _, rfl, rfl, rfl⟩ := h
        exact .nthOfType hks
    | noneOf =>
        obtain ⟨selectors, rfl, ls, _, rfl, hls, _, _, rfl, rfl, rfl⟩ := h
        exact .noneOf hls
    | anyOf =>
        obtain ⟨selectors, rfl, ls, _, rfl, hls, _, _, rfl, rfl, rfl⟩ := h
        exact .anyOf hls
    | has => exact h.elim

theorem yields_call (hnested : Reads nested Nested) {function : PseudoFunction} :
    Yields (call nested finish colon function ts) simple rest ↔
      Covers ts rest (WritesCall Nested function · simple) := by
  rw [covers_congr fun ks => writesCall_iff]
  cases function with
  | nthChild edge =>
      simp only [call, yields_map_value, Prod.exists, yields_formulaCall hnested, covers_exists,
        covers_and, covers_or, true_and]
      grind
  | nthOfType edge =>
      simp only [call, yields_map_value, Prod.exists, yields_formulaCall hnested, covers_exists,
        covers_and]
      grind
  | noneOf | anyOf =>
      simp only [call, yields_map_value, yields_listCall finish colon hnested, covers_exists,
        covers_and]
      grind
  | has => simp [call, Covers]

theorem writesPseudo_iff : WritesPseudo Nested ks simple ↔
    Led (fun k => ∃ name, k = .ident name ∧ NameSays name simple) (· = []) ks ∨
      ∃ function, Led (fun k => ∃ name, k = .function name ∧
        PseudoFunction.ofName? name = some function) (WritesCall Nested function · simple) ks := by
  constructor
  · intro h
    cases h with
    | keyword h => exact .inl (.intro ⟨_, rfl, .inl ⟨_, h, rfl⟩⟩ rfl)
    | dynamic h => exact .inl (.intro ⟨_, rfl, .inr ⟨h, rfl⟩⟩ rfl)
    | call h hks => exact .inr ⟨_, .intro ⟨_, rfl, h⟩ hks⟩
  · rintro (⟨_, _, rfl, ⟨name, rfl, ⟨keyword, h, rfl⟩ | ⟨h, rfl⟩⟩, rfl⟩ |
      ⟨function, _, _, rfl, ⟨name, rfl, h⟩, hks⟩)
    · exact .keyword h
    · exact .dynamic h
    · exact .call h hks

theorem yields_pseudoClass (hnested : Reads nested Nested) :
    Yields (pseudoClass nested finish colon ts) simple rest ↔
      Covers ts rest (WritesPseudo Nested · simple) := by
  rw [covers_congr fun ks => writesPseudo_iff]
  simp only [covers_or, covers_exists]
  cases ts with
  | nil => simp [pseudoClass]
  | cons t ts =>
      rw [pseudoClass]
      simp only [covers_led_cons, covers_nil]
      split
      · next hkind => simp [hkind]
      · next name hkind =>
          simp only [hkind, Kind.ident.injEq, reduceCtorEq, false_and, exists_false, or_false,
            exists_eq_left', NameSays]
          split
          · next hlegacy =>
              obtain ⟨hkeyword, hdynamic⟩ := ofName?_of_legacy hlegacy
              simp [hkeyword, hdynamic]
          · split
            · next keyword hkeyword =>
                have hdynamic : ¬ isDynamicName name = true := fun h => by
                  rw [ofName?_of_dynamic h] at hkeyword
                  cases hkeyword
                simp only [yields_ok, hkeyword, hdynamic, Reading.ofHead_value, Reading.ofHead_rest]
                grind
            · next hkeyword =>
                split
                · next hdynamic =>
                    simp only [yields_ok, hkeyword, hdynamic, Reading.ofHead_value,
                      Reading.ofHead_rest]
                    grind
                · next hdynamic => simp [hkeyword, hdynamic]
      · next name hkind =>
          simp only [hkind, Kind.function.injEq, reduceCtorEq, false_and, exists_false, false_or,
            exists_eq_left']
          split
          · next function hfunction =>
              rw [yields_map_weaken, yields_call hnested, hfunction]
              simp only [Option.some.injEq, exists_eq_left']
          · next hfunction => simp [hfunction]
      · next hident hfunction =>
          have hnot (name : String) : t.kind ≠ .ident name ∧ t.kind ≠ .function name :=
            ⟨hident name, hfunction name⟩
          simp [hnot]

end Nested

end CssQuery.Reader
