import CssQuery.Proofs.Selector.Forms
import CssQuery.Proofs.Token.Clean

namespace CssQuery

open Text (Respaced byteSize)

variable {c : Char} {cs lexeme name rest : List Char} {k : Kind} {offset finish colon : Nat}
  {allowOf : Bool} {t close : Token} {ts more : List Token} {f : Formula}

namespace Reader

-- What is put together from tokens, whether formulas have such tokens or not.
def glued (ts : List Token) : List Char := ts.flatMap fun t => (piece? t.kind).getD t.lexeme

theorem glued_cons : glued (t :: ts) = (piece? t.kind).getD t.lexeme ++ glued ts :=
  List.flatMap_cons

def ofTokens (ts : List Token) : Argument :=
  ⟨glued ts, ts.all fun t => (piece? t.kind).isSome, false⟩

-- An argument reaches up to the parenthesis, as no token before it ends the formula.
theorem finds_argument_close (hclose : close.kind = .closeParen)
    (hts : ∀ t ∈ ts, t.kind ≠ .closeParen ∧ (allowOf && isOf t.kind) = false) :
    Finds (argument allowOf (ts ++ close :: more)) (ofTokens ts) (close :: more) := by
  induction ts with
  | nil =>
      rw [List.nil_append, argument, if_pos hclose]
      exact finds_some.2 ⟨rfl, rfl⟩
  | cons t ts ih =>
      obtain ⟨⟨hparen, hof⟩, hts⟩ := List.forall_mem_cons.1 hts
      rw [List.cons_append, argument, if_neg hparen, hof, if_neg Bool.false_ne_true]
      refine finds_map.2 ⟨_, _, ih hts, ?_, rfl⟩
      simp only [Reading.weaken_value, Reading.map_value, ofTokens, glued_cons, List.all_cons]
      unfold Argument.behind
      cases piece? t.kind <;> rfl

theorem writesText_glued (h : ∀ t ∈ ts, (piece? t.kind).isSome = true) :
    Grammar.WritesText (ts.map Token.kind) (glued ts) := by
  induction ts with
  | nil => exact .nil
  | cons t ts ih =>
      obtain ⟨ht, hts⟩ := List.forall_mem_cons.1 h
      obtain ⟨piece, hpiece⟩ := Option.isSome_iff_exists.1 ht
      rw [List.map_cons, glued_cons, hpiece, Option.getD_some]
      exact writesText_iff.2 (.inr ⟨piece, glued ts, rfl, .intro hpiece (ih hts)⟩)

theorem nextStart_of_head (h : ∀ t ∈ ts.head?, t.start = offset) (hne : ts ≠ []) :
    nextStart finish ts = offset := by
  obtain ⟨t, rest, rfl⟩ := List.exists_cons_of_ne_nil hne
  exact h t rfl

theorem formula_eq_error {read : Argument} (h : Finds (argument allowOf ts) read more)
    (hnone : read.formula? = none) (hstart : nextStart finish ts = offset) :
    formula finish colon allowOf ts =
      .error (.malformed offset (.invalidFormula read.shown)) := by
  obtain ⟨within, h⟩ := h
  simp only [formula, h, hnone, hstart]

-- The pseudo-classes with a formula, and whether the word "of" may follow it.
inductive TakesFormula : PseudoFunction → Bool → (Formula → Simple) → Prop
  | nthChild {edge : Edge} : TakesFormula (.nthChild edge) true (.nthChild edge · none)
  | nthOfType {edge : Edge} : TakesFormula (.nthOfType edge) false (.nthOfType edge)

variable {nested : ListReader} {function : PseudoFunction} {simple : Formula → Simple}
  {Nested : List Kind → SelectorList → Prop} {error : SelectorError} {ks : List Kind}

theorem TakesFormula.writes (h : TakesFormula function allowOf simple)
    (hks : Grammar.WritesFormula allowOf ks f) :
    Grammar.WritesCall Nested function (ks ++ [.closeParen]) (simple f) := by
  cases h with
  | nthChild => exact .nthChild hks
  | nthOfType => exact .nthOfType hks

theorem TakesFormula.call_eq_error (h : TakesFormula function allowOf simple)
    (hformula : formula finish colon allowOf ts = .error error) :
    call nested finish colon function ts = .error error := by
  cases h with
  | nthChild => rw [call, formulaCall, hformula]; rfl
  | nthOfType => rw [call, formulaCall, hformula]; rfl

theorem TakesFormula.eq_of_eq {g : Formula} (h : TakesFormula function allowOf simple)
    (heq : simple f = simple g) : f = g := by
  cases h with
  | nthChild => exact (Simple.nthChild.inj heq).2.1
  | nthOfType => exact (Simple.nthOfType.inj heq).2

end Reader

namespace SelectorList

open Reader

-- What fails at the head of a text fails for the text.
theorem ofText_eq_error {text : String} {limit : Nat} {error : SelectorError}
    (hscan : Token.scan text = .ok (t :: ts)) (ht : t.kind ≠ .blank)
    (h : ∀ nested, simple? nested (byteSize text.toList) true (t :: ts) = .error error) :
    ofText text limit = .error error := by
  have hskip : skipBlanks (t :: ts) = t :: ts := skipBlanks_cons ht
  have hlist (nested : ListReader) :
      selectorList nested (byteSize text.toList) (t :: ts) = .error error := by
    have hcompound : compound nested (byteSize text.toList) (t :: ts) = .error error := by
      unfold compound
      simp only [h]
    have hcomplex : complex nested (byteSize text.toList) (skipBlanks (t :: ts)) =
        .error error := by
      rw [hskip, complex, hcompound]
    rw [selectorList, hcomplex]
  rw [ofText, hscan]
  simp only [bind, Except.bind, hskip, List.isEmpty_cons, Bool.false_eq_true, if_false, hlist]

end SelectorList

namespace Token

open Reader

-- Without escapes and comments a token is spelled as it is read, up to its blanks.
theorem Lexeme.piece_eq (h : Lexeme k lexeme rest) (hclean : Clean lexeme) (hk : k ≠ .blank) :
    (piece? k).getD lexeme = lexeme := by
  cases h with
  | blank => exact absurd rfl hk
  | string => rfl
  | hash => rfl
  | number => exact String.toList_ofList
  | ident hopens h =>
      obtain ⟨rfl, -⟩ := h.eq_of_clean hclean
      exact String.toList_ofList
  | function => rfl
  | punctuation hc =>
      unfold punctuation? at hc
      split at hc <;> cases hc <;> rfl
  | comparison hc =>
      unfold comparison? at hc
      split at hc <;> cases hc <;> rfl
  | delim => rfl

theorem Lexeme.respaced (h : Lexeme k lexeme rest) (hclean : Clean lexeme) :
    Respaced lexeme ((piece? k).getD lexeme) := by
  by_cases hk : k = .blank
  · subst hk
    obtain ⟨b, run, rfl, hb, hrun, -⟩ := h.exists_blankRun rfl
    have hblank : Text.Blank (b :: run) :=
      List.forall_mem_cons.2 ⟨hb, hrun.blank_of_clean hclean.tail⟩
    exact .of_blank hblank (List.cons_ne_nil _ _)
  · rw [h.piece_eq hclean hk]
    exact .refl lexeme

-- A token that formulas lack has a character that they lack.
theorem Lexeme.exists_foreign (h : Lexeme k lexeme rest) (hk : piece? k = none) :
    ∃ c ∈ lexeme, Formula.isFormulaChar c.toLower = false := by
  cases h with
  | blank | number | ident | delim => cases hk
  | @string quote value spelled rest hquote =>
      refine ⟨quote, .head _, ?_⟩
      rcases hquote with rfl | rfl <;> rfl
  | hash => exact ⟨'#', .head _, rfl⟩
  | function => exact ⟨'(', List.mem_append_right _ (.head _), rfl⟩
  | @punctuation c k rest hc =>
      refine ⟨c, .head _, ?_⟩
      unfold punctuation? at hc
      split at hc <;> cases hc <;> rfl
  | comparison => exact ⟨'=', .tail _ (.head _), rfl⟩

theorem Lexeme.mem_of_closeParen (h : Lexeme .closeParen lexeme rest) : ')' ∈ lexeme := by
  generalize hk : Kind.closeParen = k at h
  cases h with
  | @punctuation c k rest hc =>
      subst hk
      unfold punctuation? at hc
      split at hc <;> cases hc
      exact .head _
  | @comparison c k rest hc =>
      subst hk
      unfold comparison? at hc
      split at hc <;> cases hc
  | _ => cases hk

theorem Splits.exists_lexeme (h : Splits offset cs ts) (ht : t ∈ ts) :
    t.lexeme <:+: cs ∧ ∃ rest, Lexeme t.kind t.lexeme rest := by
  induction h with
  | last => cases ht
  | @cons offset gap lexeme rest k more hgap hlexeme hopen hmore ih =>
      obtain rfl | ht := List.mem_cons.1 ht
      · exact ⟨⟨gap, rest, List.append_assoc _ _ _⟩, rest, hlexeme⟩
      · have hrest : rest <:+: gap ++ (lexeme ++ rest) :=
          ((List.suffix_append lexeme rest).trans (List.suffix_append gap _)).isInfix
        exact ⟨(ih ht).1.trans hrest, (ih ht).2⟩

theorem Splits.respaced (h : Splits offset cs ts) (hclean : Clean cs) :
    Respaced cs (glued ts) := by
  induction h with
  | @last offset gap hgap =>
      obtain rfl := hgap.eq_nil ((List.append_nil gap).symm ▸ hclean.not_opens)
      exact .nil
  | cons hgap hlexeme hopen hmore ih =>
      obtain rfl := hgap.eq_nil hclean.not_opens
      rw [List.nil_append, glued_cons]
      exact (hlexeme.respaced hclean.right.left).append (ih hclean.right.right)

theorem Splits.formula?_eq (h : Splits offset cs ts) (hclean : Clean cs) :
    (ofTokens ts).formula? = Formula.ofText? (String.ofList cs) := by
  rw [Argument.formula?]
  split
  · exact (Formula.ofText?_respaced (h.respaced hclean)).symm
  · next hall =>
      obtain ⟨t, ht, hpiece⟩ : ∃ t ∈ ts, piece? t.kind = none := by simpa [ofTokens] using hall
      obtain ⟨hinside, rest, hlexeme⟩ := h.exists_lexeme ht
      obtain ⟨c, hc, hforeign⟩ := hlexeme.exists_foreign hpiece
      cases hread : Formula.ofText? (String.ofList cs) with
      | none => rfl
      | some f =>
          have hmem : c ∈ (String.ofList cs).toList :=
            String.toList_ofList.symm ▸ hinside.subset hc
          rw [Formula.isFormulaChar_of_ofText? hread hmem] at hforeign
          cases hforeign

theorem nameSpelling_raw (h : ∀ c ∈ name, isNameChar c = true) : NameSpelling rest name name := by
  induction name with
  | nil => exact .nil
  | cons c name ih =>
      obtain ⟨hc, hname⟩ := List.forall_mem_cons.1 h
      exact .raw hc (ih hname)

theorem OpensName.not_opens (h : OpensName name) :
    ∀ body, name ++ rest ≠ '/' :: '*' :: body := by
  cases name with
  | nil => exact h.elim
  | cons c name =>
      rintro body heq
      obtain ⟨rfl, -⟩ := List.cons_eq_cons.1 heq
      exact absurd ((opensName_cons (by decide)).1 h) (by decide)

theorem lexeme_function (hopens : OpensName name) (hname : ∀ c ∈ name, isNameChar c = true) :
    Lexeme (.function (.ofList name)) (name ++ ['(']) rest :=
  .function hopens (nameSpelling_raw hname)

-- A pseudo-class with an argument, as it is split into tokens.
theorem Splits.call (hopens : OpensName name) (hname : ∀ c ∈ name, isNameChar c = true)
    (h : Splits (byteSize (':' :: (name ++ ['(']))) cs ts) :
    Splits 0 (':' :: (name ++ ['('] ++ cs))
      (⟨.colon, 0, [':']⟩ :: ⟨.function (.ofList name), 1, name ++ ['(']⟩ :: ts) := by
  have hopen : ∀ body, name ++ ['('] ++ cs ≠ '/' :: '*' :: body := by
    rw [List.append_assoc]
    exact hopens.not_opens
  have hcolon : Lexeme .colon [':'] (name ++ ['('] ++ cs) := .punctuation rfl
  exact .cons .nil hcolon nofun (.cons .nil (lexeme_function hopens hname) hopen h)

end Token

namespace SelectorList

open Reader Token

variable {function : PseudoFunction} {simple : Formula → Simple} {raw : String} {limit : Nat}

def opened (name : String) : String := ":" ++ name ++ "("

-- A pseudo-class of this name reads its argument as a formula of its own, and what is no
-- formula is at fault where it begins. It is shown with its blanks in other lengths.
structure ReadsNth (name : String) (simple : Formula → Simple) (raw : String) : Prop where
  ok : ∀ limit f, ofText (opened name ++ raw ++ ")") limit = .ok [⟨[simple f], []⟩] ↔
    Formula.ofText? raw = some f
  error : Formula.ofText? raw = none → ∀ limit, ∃ shown, Respaced raw.toList shown ∧
    ofText (opened name ++ raw ++ ")") limit = .error (.malformed (opened name).utf8ByteSize
      (.invalidFormula (String.ofList (Text.trimSpace shown))))

theorem toList_opened (name : String) : (opened name).toList = ':' :: (name.toList ++ ['(']) := by
  simp [opened]

-- The tokens of an argument among those of the whole text.
structure Enclosed (name raw : String) (ts : List Token) (close : Token) : Prop where
  splits : Splits (opened name).utf8ByteSize raw.toList ts
  isClose : close.kind = .closeParen
  start : ∀ t ∈ (ts ++ [close]).head?, t.start = (opened name).utf8ByteSize
  scan : Token.scan (opened name ++ raw ++ ")") = .ok
    (⟨.colon, 0, [':']⟩ :: ⟨.function name, 1, name.toList ++ ['(']⟩ :: (ts ++ [close]))

theorem exists_enclosed {name : String} (hopens : OpensName name.toList)
    (hname : ∀ c ∈ name.toList, isNameChar c = true) (hclean : Clean raw.toList) :
    ∃ ts close, Enclosed name raw ts close := by
  have hsize : byteSize (':' :: (name.toList ++ ['('])) = (opened name).utf8ByteSize := by
    rw [← toList_opened, Text.byteSize_toList]
  have htext : (opened name ++ raw ++ ")").toList =
      ':' :: (name.toList ++ ['('] ++ (raw.toList ++ [')'])) := by
    simp [toList_opened]
  obtain ⟨ts, hts⟩ := hclean.exists_splits (opened name).utf8ByteSize
  have hclose := hts.close hclean
  have hsplits := (hsize ▸ hclose).call hopens hname
  rw [String.ofList_toList, ← htext, hsize] at hsplits
  exact ⟨ts, _, hts, rfl, hclose.head_start hclean.not_opens_close,
    scan_eq_ok_iff.2 (scanFrom_eq_ok_iff.2 hsplits)⟩

variable {name : String}

-- Wherever a text stands, the kinds of its tokens are the same.
theorem Enclosed.not_writesOf (h : Enclosed name raw ts close)
    (hof : ∀ tokens, Token.scan raw = .ok tokens → ∀ t ∈ tokens, ¬ Grammar.WritesOf t.kind) :
    ∀ t ∈ ts, ¬ Grammar.WritesOf t.kind := by
  intro t ht
  obtain ⟨tokens, hscan, hkinds⟩ := h.splits.spells 0
  have hkind : t.kind ∈ tokens.map Token.kind := hkinds ▸ List.mem_map_of_mem ht
  obtain ⟨u, hu, hkind⟩ := List.mem_map.1 hkind
  exact hkind ▸ hof tokens (scan_eq_ok_iff.2 hscan) u hu

theorem Enclosed.finds (h : Enclosed name raw ts close) (hclose : ')' ∉ raw.toList)
    (hof : allowOf = true → ∀ t ∈ ts, ¬ Grammar.WritesOf t.kind) :
    Finds (argument allowOf (ts ++ [close])) (ofTokens ts) [close] := by
  refine finds_argument_close h.isClose fun t ht => ⟨fun hkind => ?_, ?_⟩
  · obtain ⟨hinside, rest, hlexeme⟩ := h.splits.exists_lexeme ht
    rw [hkind] at hlexeme
    exact hclose (hinside.subset hlexeme.mem_of_closeParen)
  · rw [Bool.and_eq_false_imp]
    exact fun hallow => Bool.eq_false_iff.2 (mt isOf_iff.1 (hof hallow t ht))

theorem Enclosed.formula?_eq (h : Enclosed name raw ts close) (hclean : Clean raw.toList) :
    (ofTokens ts).formula? = Formula.ofText? raw := by
  rw [h.splits.formula?_eq hclean, String.ofList_toList]

theorem writesFormula_ofTokens (hf : (ofTokens ts).formula? = some f)
    (hof : allowOf = true → ∀ t ∈ ts, ¬ Grammar.WritesOf t.kind) :
    Grammar.WritesFormula allowOf (ts.map Token.kind) f := by
  rw [Argument.formula?] at hf
  split at hf
  · next hplain =>
      exact ⟨⟨glued ts, writesText_glued (List.all_eq_true.1 hplain), hf⟩,
        fun hallow => List.forall_mem_map.2 (hof hallow)⟩
  · cases hf

theorem writes_call {ks : List Kind} {simple : Simple}
    (hfunction : PseudoFunction.ofName? name = some function)
    (h : Grammar.WritesCall (Grammar.WritesNested limit) function ks simple) :
    Grammar.Writes limit (.colon :: .function name :: ks) [⟨[simple], []⟩] := by
  have hsimple := Grammar.WritesSimple.pseudo (.call hfunction h)
  have hcompound := Grammar.WritesCompound.untyped (.cons hsimple .nil) (List.cons_ne_nil _ _)
  have hlist := Grammar.WritesList.one (List.forall_mem_nil _) (.compound hcompound)
    (List.forall_mem_nil _)
  rwa [List.nil_append, List.append_nil, List.append_nil] at hlist

section Takes

-- A pseudo-class with a formula, and no word "of" that would end it.
variable (h : Enclosed name raw ts close) (hclean : Clean raw.toList)
  (hfunction : PseudoFunction.ofName? name = some function)
  (htakes : TakesFormula function allowOf simple)
  (hof : allowOf = true → ∀ t ∈ ts, ¬ Grammar.WritesOf t.kind)

include h hclean hfunction htakes hof

theorem Enclosed.ok (hf : Formula.ofText? raw = some f) :
    ofText (opened name ++ raw ++ ")") limit = .ok [⟨[simple f], []⟩] := by
  have hformula := writesFormula_ofTokens ((h.formula?_eq hclean).trans hf) hof
  rw [ofText_eq_ok h.scan, List.map_cons, List.map_cons, List.map_append, List.map_singleton,
    h.isClose]
  exact writes_call hfunction (htakes.writes hformula)

variable (hclose : ')' ∉ raw.toList)

include hclose

theorem Enclosed.error (hnone : Formula.ofText? raw = none) :
    ofText (opened name ++ raw ++ ")") limit = .error (.malformed (opened name).utf8ByteSize
      (.invalidFormula (String.ofList (Text.trimSpace (glued ts))))) := by
  have hstart (finish : Nat) : nextStart finish (ts ++ [close]) = (opened name).utf8ByteSize :=
    nextStart_of_head h.start (List.append_ne_nil_of_right_ne_nil _ (List.cons_ne_nil _ _))
  have hformula (finish colon : Nat) : formula finish colon allowOf (ts ++ [close]) = _ :=
    formula_eq_error (h.finds hclose hof) ((h.formula?_eq hclean).trans hnone) (hstart finish)
  refine ofText_eq_error h.scan nofun fun nested => ?_
  rw [simple?, pseudoClass]
  simp only [hfunction, htakes.call_eq_error (hformula _ _)]
  rfl

theorem Enclosed.readsNth : ReadsNth name simple raw := by
  refine ⟨fun limit f => ⟨fun hok => ?_, h.ok hclean hfunction htakes hof⟩, fun hnone limit => ?_⟩
  · cases hg : Formula.ofText? raw with
    | none =>
        rw [h.error hclean hfunction htakes hof hclose hg] at hok
        cases hok
    | some g =>
        rw [h.ok hclean hfunction htakes hof hg] at hok
        have hsimple : simple g = simple f := by simpa using hok
        rw [htakes.eq_of_eq hsimple]
  · exact ⟨glued ts, h.splits.respaced hclean, h.error hclean hfunction htakes hof hclose hnone⟩

end Takes

theorem readsNth (hclean : Clean raw.toList) (hclose : ')' ∉ raw.toList)
    (hopens : OpensName name.toList) (hname : name.toList.all isNameChar = true)
    (hfunction : PseudoFunction.ofName? name = some function)
    (htakes : TakesFormula function allowOf simple)
    (hof : allowOf = true → ∀ tokens, Token.scan raw = .ok tokens →
      ∀ t ∈ tokens, ¬ Grammar.WritesOf t.kind) : ReadsNth name simple raw := by
  obtain ⟨ts, close, h⟩ := exists_enclosed hopens (List.all_eq_true.1 hname) hclean
  exact h.readsNth hclean hfunction htakes (fun hallow => h.not_writesOf (hof hallow)) hclose

-- The word "of" would end the formula of a pseudo-class that takes it.
theorem ofText_nth (hclean : Clean raw.toList) (hclose : ')' ∉ raw.toList) :
    ReadsNth "nth-of-type" (.nthOfType .first) raw ∧
      ReadsNth "nth-last-of-type" (.nthOfType .last) raw ∧
      ∃ tokens, Token.scan raw = .ok tokens ∧
        ((∀ t ∈ tokens, ¬ Grammar.WritesOf t.kind) →
          ReadsNth "nth-child" (.nthChild .first · none) raw ∧
            ReadsNth "nth-last-child" (.nthChild .last · none) raw) := by
  obtain ⟨tokens, hsplits⟩ := hclean.exists_splits 0
  have hscan := scan_eq_ok_iff.2 (scanFrom_eq_ok_iff.2 hsplits)
  refine ⟨readsNth hclean hclose (.inl rfl) rfl rfl .nthOfType nofun,
    readsNth hclean hclose (.inl rfl) rfl rfl .nthOfType nofun, tokens, hscan, fun hof => ?_⟩
  have hall : ∀ found, Token.scan raw = .ok found → ∀ t ∈ found, ¬ Grammar.WritesOf t.kind := by
    intro found hfound
    obtain rfl := Except.ok.inj (hscan.symm.trans hfound)
    exact hof
  exact ⟨readsNth hclean hclose (.inl rfl) rfl rfl .nthChild fun _ => hall,
    readsNth hclean hclose (.inl rfl) rfl rfl .nthChild fun _ => hall⟩

theorem ofText_nth_dashed : Clean "-2N- 3".toList ∧ ')' ∉ "-2N- 3".toList ∧
    ∀ limit, ofText ":nth-of-type(-2N- 3)" limit = .ok [⟨[.nthOfType .first ⟨-2, -3⟩], []⟩] ∧
      ofText ":nth-last-child(-2N- 3)" limit = .ok [⟨[.nthChild .last ⟨-2, -3⟩ none], []⟩] := by
  have hclean : Clean "-2N- 3".toList :=
    ⟨by simp, fun hopen => absurd (hopen.subset (.head _)) (by decide)⟩
  have hclose : ')' ∉ "-2N- 3".toList := by decide
  have hformula : Formula.ofText? "-2N- 3" = some ⟨-2, -3⟩ := rfl
  have hany : (Token.scan "-2N- 3").map (·.any fun t => isOf t.kind) = .ok false := by
    with_unfolding_all rfl
  obtain ⟨htype, -, tokens, hscan, hchild⟩ := ofText_nth hclean hclose
  rw [hscan] at hany
  have hof : ∀ t ∈ tokens, ¬ Grammar.WritesOf t.kind := fun t ht =>
    mt isOf_iff.2 (List.any_eq_false.1 (Except.ok.inj hany) t ht)
  exact ⟨hclean, hclose, fun limit => ⟨(htype.ok limit _).2 hformula,
    ((hchild hof).2.ok limit _).2 hformula⟩⟩

end SelectorList

end CssQuery
