import CssQuery.Proofs.Text.Digits
import CssQuery.Proofs.Token.Comments
import CssQuery.Proofs.Token.Names
import Mathlib.Data.List.TakeWhile

namespace CssQuery

-- Names are never empty, and the end of the text is no part of it.
def Kind.Named : Kind → Prop
  | .ident name | .function name | .hash name _ => name ≠ ""
  | .finish => False
  | _ => True

namespace Token

open Text (byteSize)

-- A character that stands for itself before the text that follows.
structure IsDelim (c : Char) (rest : List Char) : Prop where
  blank : Text.isBlank c = false
  quote : ¬ (c = '"' ∨ c = '\'')
  hash : c = '#' → EndsName rest
  digit : c.isDigit = false
  name : startsName (c :: rest) = false
  escape : c ≠ '\\'
  punctuation : punctuation? c = none
  comparison : (comparison? c).isSome → rest.head? ≠ some '='

-- A character that is no mark of the tokens that are tried before names.
structure Unmarked (c : Char) : Prop where
  blank : Text.isBlank c = false
  quote : ¬ (c = '"' ∨ c = '\'')
  hash : c ≠ '#'
  digit : c.isDigit = false

-- The texts of the tokens of each kind, and what may follow them.
inductive Lexeme : Kind → List Char → List Char → Prop
  | blank {b : Char} {run rest : List Char} (hb : Text.isBlank b = true) (hrun : BlankRun run)
      (hrest : EndsBlank rest) : Lexeme .blank (b :: run) rest
  | string {quote : Char} {value spelled rest : List Char} (hquote : quote = '"' ∨ quote = '\'')
      (h : QuotedSpelling quote value spelled) :
      Lexeme (.string (.ofList value)) (quote :: (spelled ++ [quote])) rest
  | hash {value spelled rest : List Char} {isIdentifier : Bool} (hne : spelled ≠ [])
      (h : NameSpelling rest value spelled) (hend : EndsName rest)
      (hid : isIdentifier = true ↔ OpensName spelled) :
      Lexeme (.hash (.ofList value) isIdentifier) ('#' :: spelled) rest
  | number {d : Char} {digits rest : List Char} (hd : d.isDigit = true)
      (hdigits : ∀ d ∈ digits, d.isDigit = true) (hrest : ∀ b ∈ rest.head?, b.isDigit = false) :
      Lexeme (.number (.ofList (d :: digits))) (d :: digits) rest
  | ident {value spelled rest : List Char} (hopens : OpensName spelled)
      (h : NameSpelling rest value spelled) (hend : EndsName rest)
      (hparen : rest.head? ≠ some '(') : Lexeme (.ident (.ofList value)) spelled rest
  | function {value spelled rest : List Char} (hopens : OpensName spelled)
      (h : NameSpelling ('(' :: rest) value spelled) :
      Lexeme (.function (.ofList value)) (spelled ++ ['(']) rest
  | punctuation {c : Char} {k : Kind} {rest : List Char} (hc : punctuation? c = some k) :
      Lexeme k [c] rest
  | comparison {c : Char} {k : Kind} {rest : List Char} (hc : comparison? c = some k) :
      Lexeme k [c, '='] rest
  | delim {c : Char} {rest : List Char} (h : IsDelim c rest) : Lexeme (.delim c) [c] rest

variable {c : Char} {k : Kind} {body cs gap lexeme rest run tail value : List Char} {offset : Nat}

theorem isNameStart_of_isDigit (h : c.isDigit = true) : isNameStart c = false := by
  have hunder : c ≠ '_' := Text.ne_of_isDigit h rfl
  have halpha : c.isAlpha = false :=
    Bool.or_eq_false_iff.2 ⟨Text.isUpper_of_isDigit h, Text.isLower_of_isDigit h⟩
  have hhigh : ¬ 0x80 ≤ c.toNat := fun hhigh =>
    absurd (Nat.le_trans hhigh (Char.isDigit_iff_toNat.1 h).2) (by decide)
  simp [isNameStart, halpha, hunder, hhigh]

theorem unmarked_of_isNameStart (h : isNameStart c = true) : Unmarked c := by
  refine ⟨Bool.eq_false_iff.2 fun hblank => ?_, ?_, ?_, Bool.eq_false_iff.2 fun hdigit => ?_⟩
  · simp only [Text.isBlank, Bool.or_eq_true, beq_iff_eq] at hblank
    rcases hblank with (((rfl | rfl) | rfl) | rfl) | rfl <;> cases h
  · rintro (rfl | rfl) <;> cases h
  · rintro rfl
    cases h
  · rw [isNameStart_of_isDigit hdigit] at h
    cases h

-- With which characters a name that is an identifier can begin.
theorem isNameChar_or_of_startsName (h : startsName (c :: tail) = true) :
    isNameChar c = true ∨ c = '\\' ∧ tail.head? ≠ some '\n' := by
  by_cases hdash : c = '-'
  · subst hdash
    exact .inl rfl
  · rw [startsName_cons hdash, Bool.or_eq_true] at h
    rcases h with hstart | hescape
    · exact .inl (by simp [isNameChar, hstart])
    · obtain ⟨_, heq, htail⟩ := startsEscape_iff.1 hescape
      obtain ⟨rfl, rfl⟩ := List.cons_eq_cons.1 heq
      exact .inr ⟨rfl, htail⟩

theorem unmarked_of_startsName (h : startsName (c :: tail) = true) : Unmarked c := by
  by_cases hdash : c = '-'
  · subst hdash
    exact ⟨rfl, by decide, by decide, rfl⟩
  · rw [startsName_cons hdash, Bool.or_eq_true] at h
    rcases h with hstart | hescape
    · exact unmarked_of_isNameStart hstart
    · obtain ⟨_, heq, -⟩ := startsEscape_iff.1 hescape
      obtain ⟨rfl, -⟩ := List.cons_eq_cons.1 heq
      exact ⟨rfl, by decide, by decide, rfl⟩

theorem yields_nameFrom_iff (h : startsName (c :: tail) = true) :
    Yields (nameFrom c tail) value rest ↔ Yields (name (c :: tail)) value rest := by
  obtain hc | ⟨rfl, htail⟩ := isNameChar_or_of_startsName h
  · rw [nameFrom, if_pos hc, yields_name_raw hc]
    refine yields_map_value.trans (exists_congr fun more => ?_)
    rw [and_comm, eq_comm]
  · rw [nameFrom, if_neg (by decide)]
    cases tail with
    | nil => exact iff_of_false (yields_error _) not_yields_name_backslash
    | cons first tail =>
        rw [yields_name_escape (by simpa using htail), escape, yields_bind]
        constructor
        · rintro ⟨_, _, hfirst, h⟩
          obtain ⟨rfl, rfl⟩ := yields_ok.1 hfirst
          obtain ⟨more, _, hmore, h⟩ := yields_bind.1 h
          obtain ⟨rfl, rfl⟩ := yields_ok.1 h
          exact ⟨more, rfl, hmore⟩
        · rintro ⟨more, rfl, hmore⟩
          exact ⟨_, _, yields_ok.2 ⟨rfl, rfl⟩,
            yields_bind.2 ⟨more, rest, hmore, yields_ok.2 ⟨rfl, rfl⟩⟩⟩

theorem takeWhile_iff {p : Char → Bool} {taken : List Char} :
    (Reading.takeWhile p cs).value = taken ∧ (Reading.takeWhile p cs).rest = rest ↔
      cs = taken ++ rest ∧ (∀ c ∈ taken, p c = true) ∧ ∀ b ∈ rest.head?, p b = false := by
  constructor
  · rintro ⟨rfl, rfl⟩
    refine ⟨List.takeWhile_append_dropWhile.symm, fun c => List.mem_takeWhile_imp, fun b hb => ?_⟩
    have hhead := List.head?_dropWhile_not p cs
    rw [Reading.takeWhile_rest] at hb
    rw [hb] at hhead
    exact hhead
  · rintro ⟨rfl, htaken, hrest⟩
    rw [Reading.takeWhile_value, Reading.takeWhile_rest, List.takeWhile_append_of_pos htaken,
      List.dropWhile_append_of_pos htaken]
    cases rest with
    | nil => exact ⟨List.append_nil _, rfl⟩
    | cons b rest =>
        have hb : ¬ p b = true := by simp [hrest b rfl]
        rw [List.takeWhile_cons_of_neg hb, List.dropWhile_cons_of_neg hb]
        exact ⟨List.append_nil _, rfl⟩

theorem ne_backslash_of_quote (h : c = '"' ∨ c = '\'') : c ≠ '\\' := by
  rcases h with rfl | rfl <;> decide

theorem nameKind_of_head (h : rest.head? ≠ some '(') :
    nameKind value rest = .ofNone (.ident (.ofList value)) rest := by
  unfold nameKind
  split
  · exact absurd rfl h
  · rfl

theorem exists_lexeme_nameKind {spelled : List Char} (hopens : OpensName spelled)
    (h : NameSpelling rest value spelled) (hend : EndsName rest) : ∃ lexeme,
    spelled ++ rest = lexeme ++ (nameKind value rest).rest ∧
      Lexeme (nameKind value rest).value lexeme (nameKind value rest).rest := by
  by_cases hparen : rest.head? = some '('
  · obtain ⟨more, rfl⟩ := List.head?_eq_some_iff.1 hparen
    exact ⟨spelled ++ ['('], by simp [nameKind], .function hopens h⟩
  · rw [nameKind_of_head hparen]
    exact ⟨spelled, rfl, .ident hopens h hend hparen⟩

theorem comparisonFrom?_of_head (h : tail.head? ≠ some '=') : comparisonFrom? c tail = none := by
  unfold comparisonFrom?
  split
  · exact absurd rfl h
  · rfl

theorem exists_lexeme_symbolFrom (h : punctuation? c = none → comparisonFrom? c tail = none →
    IsDelim c tail) : ∃ lexeme, c :: tail = lexeme ++ (symbolFrom c tail).rest ∧
      Lexeme (symbolFrom c tail).value lexeme (symbolFrom c tail).rest := by
  unfold symbolFrom
  split
  · next k hk => exact ⟨[c], rfl, .punctuation hk⟩
  · next hpunctuation =>
      split
      · next read hread =>
          unfold comparisonFrom? at hread
          split at hread
          · obtain ⟨k, hk, rfl⟩ := Option.map_eq_some_iff.1 hread
            exact ⟨[c, '='], rfl, .comparison hk⟩
          · cases hread
      · next hread => exact ⟨[c], rfl, .delim (h hpunctuation hread)⟩

-- The cases are the branches of the reader, each with those before it ruled out.
theorem exists_lexeme_of_picks (h : Picks (kind? cs) k rest) :
    ∃ lexeme, cs = lexeme ++ rest ∧ Lexeme k lexeme rest := by
  cases cs with
  | nil => exact absurd h not_picks_none
  | cons c tail =>
      replace h : Yields (kindFrom c tail) k rest := picks_some_map.1 h
      unfold kindFrom at h
      split at h
      · next hb =>
          obtain ⟨⟨⟩, hread, rfl⟩ := yields_map_value.1 h
          obtain ⟨run, rfl, hrun, hrest⟩ := yields_skipBlanks_iff.1 hread
          exact ⟨c :: run, rfl, .blank hb hrun hrest⟩
      split at h
      · next hb hquote =>
          split at h
          · exact absurd h (yields_error _)
          · next read hread =>
              obtain ⟨rfl, rfl⟩ := yields_ok.1 h
              obtain ⟨spelled, htail, hspelled⟩ :=
                (finds_quoted_iff (ne_backslash_of_quote hquote)).1
                  (hread ▸ finds_some.2 ⟨rfl, rfl⟩)
              refine ⟨c :: (spelled ++ [c]), ?_, .string hquote hspelled⟩
              rw [List.cons_append, List.append_assoc]
              exact congrArg (c :: ·) htail
      split at h
      · next hb hquote hhash =>
          obtain ⟨rfl, hname⟩ := hhash
          obtain ⟨value, hread, rfl⟩ := yields_map_value.1 h
          obtain ⟨spelled, rfl, hspelled, hend⟩ := yields_name_iff.1 hread
          refine ⟨'#' :: spelled, rfl, .hash ?_ hspelled hend (hspelled.startsName_iff hend)⟩
          exact (hspelled.ne_nil_iff hend).2 (not_endsName_iff.2 hname)
      split at h
      · next hb hquote hhash hdigit =>
          obtain ⟨rfl, rfl⟩ := yields_ok.1 h
          obtain ⟨htail, hdigits, hrest⟩ := takeWhile_iff.1 ⟨rfl, rfl⟩
          exact ⟨_, congrArg (c :: ·) htail, .number hdigit hdigits hrest⟩
      split at h
      · next hb hquote hhash hdigit hname =>
          obtain ⟨value, mid, hread, h⟩ := yields_bind.1 h
          obtain ⟨rfl, rfl⟩ := yields_ok.1 h
          obtain ⟨spelled, hcs, hspelled, hend⟩ :=
            yields_name_iff.1 ((yields_nameFrom_iff hname).1 hread)
          have hopens : OpensName spelled := (hspelled.startsName_iff hend).1 (hcs ▸ hname)
          obtain ⟨lexeme, happend, hlexeme⟩ := exists_lexeme_nameKind hopens hspelled hend
          exact ⟨lexeme, hcs.trans happend, hlexeme⟩
      split at h
      · exact absurd h (yields_error _)
      · next hb hquote hhash hdigit hname hescape =>
          obtain ⟨rfl, rfl⟩ := yields_ok.1 h
          refine exists_lexeme_symbolFrom fun hpunctuation hcomparison => ?_
          refine ⟨by simpa using hb, hquote, ?_, by simpa using hdigit, by simpa using hname,
            hescape, hpunctuation, ?_⟩
          · intro hc
            by_contra hend
            exact hhash ⟨hc, not_endsName_iff.1 hend⟩
          · intro hc htail
            obtain ⟨more, rfl⟩ := List.head?_eq_some_iff.1 htail
            obtain ⟨k, hk⟩ := Option.isSome_iff_exists.1 hc
            simp [comparisonFrom?, hk] at hcomparison

theorem kindFrom_of_startsName (h : startsName (c :: tail) = true) : kindFrom c tail = (do
    let value ← nameFrom c tail
    return value.continuedBy (nameKind value.value value.rest)) := by
  obtain ⟨hblank, hquote, hhash, hdigit⟩ := unmarked_of_startsName h
  rw [kindFrom, if_neg (by simp [hblank]), if_neg hquote, if_neg (by simp [hhash]),
    if_neg (by simp [hdigit]), if_pos h]

theorem picks_kind?_cons : Picks (kind? (c :: tail)) k rest ↔ Yields (kindFrom c tail) k rest :=
  picks_some_map

theorem picks_nameKind {spelled : List Char} (hopens : OpensName spelled)
    (h : NameSpelling rest value spelled) (hend : EndsName rest) :
    Picks (kind? (spelled ++ rest)) (nameKind value rest).value (nameKind value rest).rest := by
  have hstarts := (h.startsName_iff hend).2 hopens
  obtain ⟨c, tail, hcs⟩ : ∃ c tail, spelled ++ rest = c :: tail := by
    cases hcs : spelled ++ rest with
    | nil =>
        rw [hcs] at hstarts
        cases hstarts
    | cons c tail => exact ⟨c, tail, rfl⟩
  have hread := h.yields hend
  rw [hcs] at hstarts hread ⊢
  rw [picks_kind?_cons, kindFrom_of_startsName hstarts, yields_bind]
  exact ⟨value, rest, (yields_nameFrom_iff hstarts).2 hread, yields_ok.2 ⟨rfl, rfl⟩⟩

theorem kindFrom_digit (h : c.isDigit = true) : kindFrom c tail =
    .ok ((Reading.takeWhile Char.isDigit tail).map fun more =>
      .number (String.ofList (c :: more))) := by
  have hblank := Text.isBlank_of_isDigit h
  have hdouble : c ≠ '"' := Text.ne_of_isDigit h rfl
  have hsingle : c ≠ '\'' := Text.ne_of_isDigit h rfl
  have hhash : c ≠ '#' := Text.ne_of_isDigit h rfl
  simp [kindFrom, hblank, hdouble, hsingle, hhash, h]

theorem Lexeme.picks (h : Lexeme k lexeme rest) : Picks (kind? (lexeme ++ rest)) k rest := by
  cases h with
  | blank hb hrun hrest =>
      rw [List.cons_append, picks_kind?_cons, kindFrom, if_pos hb]
      exact yields_map_value.2 ⟨(), yields_skipBlanks hrun hrest, rfl⟩
  | @string quote value spelled _ hquote h =>
      have hblank : Text.isBlank quote = false := by rcases hquote with rfl | rfl <;> rfl
      have happend : quote :: (spelled ++ [quote]) ++ rest =
          quote :: (spelled ++ quote :: rest) := by simp
      obtain ⟨hlt, hread⟩ : Finds (quoted quote (spelled ++ quote :: rest)) value rest :=
        (finds_quoted_iff (ne_backslash_of_quote hquote)).2 ⟨spelled, rfl, h⟩
      rw [happend, picks_kind?_cons, kindFrom, if_neg (by simp [hblank]), if_pos hquote, hread]
      exact yields_ok.2 ⟨rfl, rfl⟩
  | @hash value spelled _ isIdentifier hne h hend hid =>
      have hstarts : startsName (spelled ++ rest) = isIdentifier :=
        Bool.eq_iff_iff.2 ((h.startsName_iff hend).trans hid.symm)
      have hname := not_endsName_iff.1 ((h.ne_nil_iff hend).1 hne)
      rw [List.cons_append, picks_kind?_cons, kindFrom, if_neg (by decide), if_neg (by decide),
        if_pos ⟨rfl, hname⟩, hstarts]
      exact yields_map_value.2 ⟨value, h.yields hend, rfl⟩
  | @number d digits _ hd hdigits hrest =>
      obtain ⟨hvalue, hstop⟩ := takeWhile_iff.2 ⟨rfl, hdigits, hrest⟩
      rw [List.cons_append, picks_kind?_cons, kindFrom_digit hd]
      exact yields_ok.2 ⟨congrArg (fun more => Kind.number (.ofList (d :: more))) hvalue, hstop⟩
  | ident hopens h hend hparen =>
      have hread := picks_nameKind hopens h hend
      rw [nameKind_of_head hparen] at hread
      exact hread
  | function hopens h =>
      have hread := picks_nameKind hopens h ⟨rfl, rfl⟩
      rw [List.append_assoc]
      exact hread
  | punctuation hc =>
      unfold punctuation? at hc
      split at hc <;> cases hc <;> exact ⟨_, rfl⟩
  | comparison hc =>
      unfold comparison? at hc
      split at hc <;> cases hc <;> exact ⟨_, rfl⟩
  | @delim c _ h =>
      have hcomparison : comparisonFrom? c rest = none := by
        by_cases hhead : rest.head? = some '='
        · have hnone : comparison? c = none := by
            simpa using mt h.comparison (not_not.2 hhead)
          obtain ⟨more, rfl⟩ := List.head?_eq_some_iff.1 hhead
          rw [comparisonFrom?, hnone, Option.map_none]
        · exact comparisonFrom?_of_head hhead
      rw [List.singleton_append, picks_kind?_cons, kindFrom, if_neg (by simp [h.blank]),
        if_neg h.quote, if_neg (fun hc => not_endsName_iff.2 hc.2 (h.hash hc.1)),
        if_neg (by simp [h.digit]), if_neg (by simp [h.name]), if_neg h.escape]
      unfold symbolFrom
      simp only [h.punctuation, hcomparison]
      exact yields_ok.2 ⟨rfl, rfl⟩

-- What is read as a token is the text of one.
theorem picks_kind?_iff :
    Picks (kind? cs) k rest ↔ ∃ lexeme, cs = lexeme ++ rest ∧ Lexeme k lexeme rest := by
  constructor
  · exact exists_lexeme_of_picks
  · rintro ⟨lexeme, rfl, h⟩
    exact h.picks

theorem punctuation?_plain (h : punctuation? c = some k) : k.Named ∧ k ≠ .blank := by
  unfold punctuation? at h
  split at h <;> cases h <;> exact ⟨trivial, Kind.noConfusion⟩

theorem comparison?_plain (h : comparison? c = some k) : k.Named ∧ k ≠ .blank := by
  unfold comparison? at h
  split at h <;> cases h <;> exact ⟨trivial, Kind.noConfusion⟩

-- A token is named soundly.
theorem Lexeme.named (h : Lexeme k lexeme rest) : k.Named := by
  have hname {value : List Char} (hvalue : value ≠ []) : String.ofList value ≠ "" :=
    mt String.ofList_eq_empty_iff.1 hvalue
  cases h with
  | hash hne h => exact hname (h.value_ne_nil hne)
  | ident hopens h => exact hname (h.value_ne_nil hopens.ne_nil)
  | function hopens h => exact hname (h.value_ne_nil hopens.ne_nil)
  | punctuation hc => exact (punctuation?_plain hc).1
  | comparison hc => exact (comparison?_plain hc).1
  | _ => trivial

-- Only a blank begins a run of blanks.
theorem Lexeme.exists_blankRun (h : Lexeme k lexeme rest) (hk : k = .blank) : ∃ b run,
    lexeme = b :: run ∧ Text.isBlank b = true ∧ BlankRun run ∧ EndsBlank rest := by
  cases h with
  | blank hb hrun hrest => exact ⟨_, _, rfl, hb, hrun, hrest⟩
  | punctuation hc => exact absurd hk (punctuation?_plain hc).2
  | comparison hc => exact absurd hk (comparison?_plain hc).2
  | _ => cases hk

theorem Lexeme.ne_nil (h : Lexeme k lexeme rest) : lexeme ≠ [] := by
  cases h with
  | ident hopens => exact hopens.ne_nil
  | function => exact List.append_ne_nil_of_right_ne_nil _ (List.cons_ne_nil _ _)
  | _ => exact List.cons_ne_nil _ _

theorem scanFrom_comments (h : Comments cs) : scanFrom offset cs = .ok [] := by
  have hskip : Yields (skipComments cs) () [] := by
    rw [← List.append_nil cs]
    exact yields_skipComments h nofun
  obtain ⟨hlt, hread⟩ := yields_iff.1 hskip
  rw [scanFrom, hread]
  rfl

theorem scanFrom_cons (hgap : Comments gap) (hlexeme : Lexeme k lexeme rest)
    (hopen : ∀ body, lexeme ++ rest ≠ '/' :: '*' :: body) :
    scanFrom offset (gap ++ (lexeme ++ rest)) =
      (scanFrom (offset + byteSize gap + byteSize lexeme) rest).map
        (⟨k, offset + byteSize gap, lexeme⟩ :: ·) := by
  obtain ⟨hlt, hskip⟩ := yields_iff.1 (yields_skipComments hgap hopen)
  obtain ⟨hlt', hread⟩ := picks_iff.1 (picks_kind?_iff.2 ⟨lexeme, rfl, hlexeme⟩)
  have hstart : byteSize (gap ++ (lexeme ++ rest)) - byteSize (lexeme ++ rest) = byteSize gap := by
    rw [Text.byteSize_append, Nat.add_sub_cancel_right]
  have hlength : (lexeme ++ rest).length - rest.length = lexeme.length := by simp
  rw [scanFrom, hskip]
  simp only [hread, hstart, hlength, List.take_left]
  cases scanFrom (offset + byteSize gap + byteSize lexeme) rest <;> rfl

-- How a text splits into tokens and the comments before, between and behind them.
inductive Splits : Nat → List Char → List Token → Prop
  | last {offset : Nat} {gap : List Char} (hgap : Comments gap) : Splits offset gap []
  | cons {offset : Nat} {gap lexeme rest : List Char} {k : Kind} {more : List Token}
      (hgap : Comments gap) (hlexeme : Lexeme k lexeme rest)
      (hopen : ∀ body, lexeme ++ rest ≠ '/' :: '*' :: body)
      (hmore : Splits (offset + byteSize gap + byteSize lexeme) rest more) :
      Splits offset (gap ++ (lexeme ++ rest)) (⟨k, offset + byteSize gap, lexeme⟩ :: more)

theorem kind?_eq_none (h : kind? cs = .ok none) : cs = [] := by
  cases cs with
  | nil => rfl
  | cons c rest => cases hk : kindFrom c rest <;> simp [kind?, hk, Except.map] at h

theorem splits_of_scanFrom {tokens : List Token} (h : scanFrom offset cs = .ok tokens) :
    Splits offset cs tokens := by
  induction hn : cs.length using Nat.strong_induction_on generalizing offset cs tokens with
  | _ n ih =>
      rw [scanFrom] at h
      split at h
      · cases h
      · next read hskip =>
          obtain ⟨gap, hcs, hgap, hopen⟩ :=
            yields_skipComments_iff.1 (hskip ▸ yields_ok.2 ⟨rfl, rfl⟩)
          have hstart : byteSize cs - byteSize read.rest = byteSize gap := by
            have hsize := congrArg byteSize hcs
            rw [Text.byteSize_append] at hsize
            omega
          split at h
          · cases h
          · next hnone =>
              cases h
              rw [kind?_eq_none hnone, List.append_nil] at hcs
              exact hcs ▸ .last hgap
          · next found hfound =>
              obtain ⟨lexeme, hrest, hlexeme⟩ :=
                picks_kind?_iff.1 (hfound ▸ picks_some.2 ⟨rfl, rfl⟩)
              have htake : read.rest.take (read.rest.length - found.rest.length) = lexeme := by
                have hlength : lexeme.length = read.rest.length - found.rest.length := by
                  have happend := congrArg List.length hrest
                  rw [List.length_append] at happend
                  omega
                exact (congrArg (List.take _) hrest).trans (List.take_left' hlength)
              simp only [hstart, htake] at h
              split at h
              · cases h
              · next more hmore =>
                  cases h
                  have hlt : found.rest.length < n :=
                    hn ▸ Nat.lt_of_lt_of_le found.within (Nat.le_of_lt_succ read.within)
                  have hsplits := Splits.cons hgap hlexeme
                    (fun body heq => hopen body (hrest.trans heq)) (ih _ hlt hmore rfl)
                  rwa [← hcs.trans (congrArg (gap ++ ·) hrest)] at hsplits

theorem scanFrom_eq_ok_iff {tokens : List Token} :
    scanFrom offset cs = .ok tokens ↔ Splits offset cs tokens := by
  constructor
  · exact splits_of_scanFrom
  · intro h
    induction h with
    | last hgap => exact scanFrom_comments hgap
    | cons hgap hlexeme hopen _ ih => rw [scanFrom_cons hgap hlexeme hopen, ih]; rfl

theorem scan_eq_ok_iff {text : String} {tokens : List Token} :
    scan text = .ok tokens ↔ scanFrom 0 text.toList = .ok tokens := by
  unfold scan
  split
  · next hscan => simp [hscan]
  · next hscan => simp [hscan]

-- The scan takes this text as one token of this kind and goes on behind it.
def ReadsAs (k : Kind) (lexeme rest : List Char) : Prop :=
  ∀ offset, scanFrom offset (lexeme ++ rest) =
    (scanFrom (offset + byteSize lexeme) rest).map (⟨k, offset, lexeme⟩ :: ·)

theorem Lexeme.readsAs (h : Lexeme k lexeme rest)
    (hopen : ∀ body, lexeme ++ rest ≠ '/' :: '*' :: body) : ReadsAs k lexeme rest :=
  fun _ => scanFrom_cons .nil h hopen

-- A name is read as what it stands for, however it is spelled, and so is a string.
theorem readsAs_of_spelling {spelled : List Char} :
    (OpensName spelled → NameSpelling rest value spelled → EndsName rest →
      (rest.head? ≠ some '(' → ReadsAs (.ident (.ofList value)) spelled rest) ∧
      (∀ more, rest = '(' :: more → ReadsAs (.function (.ofList value)) (spelled ++ ['(']) more) ∧
      ReadsAs (.hash (.ofList value) true) ('#' :: spelled) rest) ∧
    ∀ quote, quote = '"' ∨ quote = '\'' → QuotedSpelling quote value spelled →
      ReadsAs (.string (.ofList value)) (quote :: (spelled ++ [quote])) rest := by
  constructor
  · intro hopens h hend
    obtain ⟨c, more, rfl⟩ : ∃ c more, spelled = c :: more := by
      cases spelled with
      | nil => exact hopens.elim
      | cons c more => exact ⟨c, more, rfl⟩
    have hslash : c ≠ '/' := by
      rintro rfl
      exact absurd ((opensName_cons (by decide)).1 hopens) (by decide)
    have hopen (tail : List Char) : ∀ body, c :: tail ≠ '/' :: '*' :: body := by
      rintro body heq
      exact hslash (List.cons_eq_cons.1 heq).1
    refine ⟨fun hparen => ?_, ?_, ?_⟩
    · exact (Lexeme.ident hopens h hend hparen).readsAs (hopen _)
    · rintro tail rfl
      exact (Lexeme.function hopens h).readsAs (hopen _)
    · exact (Lexeme.hash (List.cons_ne_nil _ _) h hend (iff_of_true rfl hopens)).readsAs nofun
  · intro quote hquote h
    refine (Lexeme.string hquote h).readsAs ?_
    rcases hquote with rfl | rfl <;> nofun

theorem readsAs_of_spelling_mixed :
    ReadsAs (.ident "b√") ['\\', '6', '2', ' ', '\\', '0', '0', '2', '2', '1', 'a'] ['.'] ∧
      ReadsAs (.function "b√") ['\\', '6', '2', '√', '('] [')'] ∧
      ReadsAs (.hash "b√" true) ['#', 'b', '\\', '√'] [] ∧
      ReadsAs (.string "b√") ['"', 'b', '\\', '\n', '\\', '2', '2', '1', 'A', '"'] [']'] := by
  have hcode : IsCode ['6', '2'] := ⟨nofun, by decide, List.all_eq_true.1 rfl⟩
  have hb : Encodes (Text.hexadecimal ['6', '2']) 'b' := .inl ⟨by decide, rfl⟩
  have hsix : IsCode ['0', '0', '2', '2', '1', 'a'] := ⟨nofun, by decide, List.all_eq_true.1 rfl⟩
  have hfour : IsCode ['2', '2', '1', 'A'] := ⟨nofun, by decide, List.all_eq_true.1 rfl⟩
  have hroot {ds : List Char} (h : Text.hexadecimal ds = 0x221a) :
      Encodes (Text.hexadecimal ds) '√' := .inl ⟨by simp [h], h.symm⟩
  have hident : NameSpelling ['.'] ['b', '√']
      ['\\', '6', '2', ' ', '\\', '0', '0', '2', '2', '1', 'a'] :=
    .escape (.closed hcode hb rfl) (.escape (.bare hsix (hroot rfl) (by rintro _ ⟨⟩; decide)) .nil)
  have hfunction : NameSpelling ['(', ')'] ['b', '√'] ['\\', '6', '2', '√'] :=
    .escape (.bare hcode hb (by rintro _ ⟨⟩; exact ⟨rfl, fun _ => rfl⟩)) (.raw rfl .nil)
  have hhash : NameSpelling [] ['b', '√'] ['b', '\\', '√'] :=
    .raw rfl (.escape (.plain rfl (by decide)) .nil)
  have hstring : QuotedSpelling '"' ['b', '√'] ['b', '\\', '\n', '\\', '2', '2', '1', 'A'] :=
    .raw (by decide) (by decide) (by decide)
      (.join (.escape (.bare hfour (hroot rfl) (by rintro _ ⟨⟩; decide)) .nil))
  refine ⟨(readsAs_of_spelling.1 ?_ hident ⟨rfl, rfl⟩).1 (by decide),
    (readsAs_of_spelling.1 ?_ hfunction ⟨rfl, rfl⟩).2.1 _ rfl,
    (readsAs_of_spelling.1 ?_ hhash ⟨rfl, rfl⟩).2.2,
    readsAs_of_spelling.2 '"' (.inl rfl) hstring⟩
  · exact .inr rfl
  · exact .inr rfl
  · exact .inl rfl

-- Whichever offset a scan begins at, it gives tokens of these kinds.
def Spells (cs : List Char) (ks : List Kind) : Prop :=
  ∀ offset, ∃ tokens, scanFrom offset cs = .ok tokens ∧ tokens.map Token.kind = ks

theorem spells_comments (h : Comments cs) : Spells cs [] :=
  fun _ => ⟨[], scanFrom_comments h, rfl⟩

theorem spells_cons {ks : List Kind} (hgap : Comments gap) (hlexeme : Lexeme k lexeme rest)
    (hopen : ∀ body, lexeme ++ rest ≠ '/' :: '*' :: body) (hrest : Spells rest ks) :
    Spells (gap ++ (lexeme ++ rest)) (k :: ks) := by
  intro offset
  obtain ⟨tokens, hscan, rfl⟩ := hrest (offset + byteSize gap + byteSize lexeme)
  exact ⟨_, by rw [scanFrom_cons hgap hlexeme hopen, hscan]; rfl, rfl⟩

end Token

end CssQuery
